import LinuxUms.CString
import LinuxUms.Device
import Mathlib.Data.List.Induction

/-! The files `info` of schedulers and workers: `proc/context.h` and the read functions of
`proc/scheduler.c` and `proc/worker.c`. Offsets, counts and remainders are machine words. -/
namespace LinuxUms.Info

open CString

/-- The members of a `struct ums_context` that are shown. -/
structure ShownContext where
  pid : BitVec 32
  state : ContextState
  switches : BitVec 32

/-- The number of the state in `context.h`. -/
def stateValue : ContextState → ℕ
  | .running => 0
  | .idle => 1

/-- The position of the highest bit set, counted from 1. -/
def fls (n : ℕ) : ℕ := if n = 0 then 0 else n.log2 + 1

def contextStateArray : List (List Char) := ["R (running)".toList, "I (idle)".toList]

def getContextState (s : ContextState) : List Char := contextStateArray.getD (fls (stateValue s)) []

def pidLabel : List Char := "Pid:\t".toList

def stateLabel : List Char := "\nState:\t".toList

def switchesLabel : List Char := "\nSwitches:\t".toList

def contextText (c : ShownContext) : List Char :=
  pidLabel ++ (decimal c.pid.toInt ++ (stateLabel ++ (getContextState c.state ++
    (switchesLabel ++ (decimal c.switches.toInt ++ ['\n'])))))

/-- What is printed, and the `int` that is returned for it. -/
def contextSnprintf {n : ℕ} (buf : Buffer (n + 1)) (c : ShownContext) :
    Buffer (n + 1) × BitVec 32 :=
  (buf.snprintf (contextText c), BitVec.ofNat 32 (contextText c).length)

def einval : ℤ := 22

def eacces : ℤ := 13

structure Outcome where
  ret : ℤ
  ppos : BitVec 64
  -- offset and number of the bytes that `copy_to_user` is called for
  source : Option (ℕ × ℕ)
  copied : List Char

/-- The read functions of both files. `left` says how many bytes at the end `copy_to_user` leaves
uncopied, if there are so many. -/
def procReadInfo {n : ℕ} (buf : Buffer (n + 1)) (c : ShownContext) (count ppos : BitVec 64)
    (left : ℕ) : Outcome :=
  let pos := ppos
  if pos.slt 0 then ⟨-einval, ppos, none, []⟩
  else
    let (buf, printed) := contextSnprintf buf c
    let len := printed.signExtend 64
    if len.sle pos || count = 0 then ⟨0, ppos, none, []⟩
    else
      -- an unsigned comparison, after a sum that may wrap around
      let count := if len.ult (pos + count) then len - pos else count
      let uncopied := min left count.toNat
      let source := (pos.toNat, count.toNat)
      let copied := (buf.chars.drop pos.toNat).take (count.toNat - uncopied)
      -- an `int`, which is compared with a `size_t`
      let retval := BitVec.ofNat 32 uncopied
      if retval.signExtend 64 = count then ⟨-eacces, ppos, some source, copied⟩
      else
        let count := count - retval.signExtend 64
        ⟨count.toInt, ppos + count, some source, copied⟩

def umsProcSchedInfoBuflen : ℕ := 512

def umsProcWorkerInfoBuflen : ℕ := 512

def procReadSchedulerInfo (buf : Buffer umsProcSchedInfoBuflen) : ShownContext → BitVec 64 →
    BitVec 64 → ℕ → Outcome :=
  procReadInfo (n := 511) buf

def procReadWorkerInfo (buf : Buffer umsProcWorkerInfoBuflen) : ShownContext → BitVec 64 →
    BitVec 64 → ℕ → Outcome :=
  procReadInfo (n := 511) buf

inductive InfoFile where
  | scheduler
  | worker

/-- One call: what is on the stack, the count, and how much is left uncopied. -/
structure ReadCall where
  buf : Buffer 512
  count : BitVec 64
  left : ℕ

def InfoFile.read (file : InfoFile) (c : ShownContext) (r : ReadCall) (ppos : BitVec 64) :
    Outcome :=
  match file with
  | .scheduler => procReadSchedulerInfo r.buf c r.count ppos r.left
  | .worker => procReadWorkerInfo r.buf c r.count ppos r.left

/-- A process that reads a file. -/
structure Reader where
  ppos : BitVec 64
  delivered : List Char

def Reader.init : Reader := ⟨0, []⟩

def Reader.read (file : InfoFile) (c : ShownContext) (s : Reader) (r : ReadCall) : Reader :=
  let out := file.read c r s.ppos
  ⟨out.ppos, s.delivered ++ out.copied⟩

def Reader.reads (file : InfoFile) (c : ShownContext) (rs : List ReadCall) : Reader :=
  rs.foldl (Reader.read file c) .init

/-- The largest count that the VFS passes on. -/
def maxRwCount : ℕ := 0x7ffff000

/-- The longest text, with two numbers of eleven characters. -/
theorem length_contextText (c : ShownContext) : (contextText c).length ≤ 58 := by
  have hpid := length_decimal_toInt c.pid
  have hswitches := length_decimal_toInt c.switches
  have hstate : (getContextState c.state).length ≤ 11 := by
    cases c.state <;> decide +kernel
  have hlabels : pidLabel.length = 5 ∧ stateLabel.length = 8 ∧ switchesLabel.length = 11 := by
    decide +kernel
  unfold contextText
  simp only [List.length_append, List.length_singleton]
  omega

theorem toNat_word (n : ℕ) (h : n < 2 ^ 64) : (BitVec.ofNat 64 n).toNat = n := by
  rw [BitVec.toNat_ofNat, Nat.mod_eq_of_lt h]

theorem toInt_word (n : ℕ) (h : n < 2 ^ 63) : (BitVec.ofNat 64 n).toInt = n := by
  have hnat := toNat_word n (by omega)
  rw [BitVec.toInt_eq_toNat_of_lt (by omega), hnat]

theorem signExtend_int (n : ℕ) (h : n < 2 ^ 31) :
    (BitVec.ofNat 32 n).signExtend 64 = BitVec.ofNat 64 n := by
  have hmsb : (BitVec.ofNat 32 n).msb = false := by
    rw [BitVec.msb_eq_false_iff_two_mul_lt, BitVec.toNat_ofNat]
    omega
  rw [BitVec.signExtend_eq_setWidth_of_msb_false hmsb]
  apply BitVec.eq_of_toNat_eq
  simp only [BitVec.toNat_setWidth, BitVec.toNat_ofNat]
  omega

theorem word_sub (m n : ℕ) (h : n ≤ m) (hm : m < 2 ^ 64) :
    BitVec.ofNat 64 m - BitVec.ofNat 64 n = BitVec.ofNat 64 (m - n) := by
  apply BitVec.eq_of_toNat_eq
  rw [BitVec.toNat_sub, toNat_word m hm, toNat_word n (by omega), toNat_word (m - n) (by omega)]
  omega

theorem word_inj (m n : ℕ) (hm : m < 2 ^ 64) (hn : n < 2 ^ 64) :
    BitVec.ofNat 64 m = BitVec.ofNat 64 n ↔ m = n := by
  constructor
  · intro h
    have hnat := congrArg BitVec.toNat h
    rwa [toNat_word m hm, toNat_word n hn] at hnat
  · exact fun h => h ▸ rfl

/-- A read at `pos`: at the end of the text, without a byte since none can be copied, or with `n`
bytes of those asked for. -/
inductive Reads (text : List Char) (pos : ℕ) (count : BitVec 64) (left : ℕ) : Outcome → Prop where
  | none (h : count = 0 ∨ pos = text.length) :
      Reads text pos count left ⟨0, BitVec.ofNat 64 pos, none, []⟩
  | eacces (asked : ℕ) (hcount : count ≠ 0) (hasked : 0 < asked) (hleft : asked ≤ left)
      (hend : pos + asked ≤ text.length) :
      Reads text pos count left ⟨-eacces, BitVec.ofNat 64 pos, some (pos, asked), []⟩
  | bytes (asked n : ℕ) (hcount : count ≠ 0) (hn : 0 < n) (hasked : n ≤ asked)
      (hend : pos + asked ≤ text.length) :
      Reads text pos count left
        ⟨n, BitVec.ofNat 64 (pos + n), some (pos, asked), (text.drop pos).take n⟩

/-- The count after it is cut down to what is left of the text. -/
theorem clamp (L pos : ℕ) (count : BitVec 64) (hpos : pos ≤ L) (hL : L ≤ 58)
    (hcount : count.toNat ≤ maxRwCount) :
    (if (BitVec.ofNat 64 L).ult (BitVec.ofNat 64 pos + count) then
      BitVec.ofNat 64 L - BitVec.ofNat 64 pos else count) =
      BitVec.ofNat 64 (min count.toNat (L - pos)) := by
  have hmax : maxRwCount = 0x7ffff000 := rfl
  have hposNat := toNat_word pos (by omega)
  have hsum : (BitVec.ofNat 64 pos + count).toNat = pos + count.toNat := by
    rw [BitVec.toNat_add_of_lt, hposNat]
    omega
  have hult : (BitVec.ofNat 64 L).ult (BitVec.ofNat 64 pos + count) = true ↔
      L < pos + count.toNat := by
    rw [BitVec.ult_iff_toNat_lt, hsum, toNat_word L (by omega)]
  by_cases h : L < pos + count.toNat
  · rw [if_pos (hult.mpr h), word_sub L pos hpos (by omega), Nat.min_eq_right (by omega)]
  · rw [if_neg (fun hu => h (hult.mp hu)), Nat.min_eq_left (by omega), BitVec.ofNat_toNat,
      BitVec.setWidth_eq]

/-- The buffer holds the text from its beginning on. -/
theorem printed_slice {n : ℕ} (buf : Buffer (n + 1)) (c : ShownContext) (hn : 58 ≤ n) (pos k : ℕ)
    (h : pos + k ≤ (contextText c).length) :
    ((contextSnprintf buf c).1.chars.drop pos).take k = ((contextText c).drop pos).take k := by
  have hL := length_contextText c
  have hchars : (contextSnprintf buf c).1.chars =
      contextText c ++ nul :: buf.chars.drop ((contextText c).length + 1) := by
    simp only [contextSnprintf, Buffer.snprintf]
    rw [List.take_of_length_le (by omega)]
  rw [hchars, List.drop_append_of_le_length (by omega),
    List.take_append_of_le_length (by rw [List.length_drop]; omega)]

theorem procReadInfo_reads {n : ℕ} (buf : Buffer (n + 1)) (c : ShownContext) (count : BitVec 64)
    (left pos : ℕ) (hn : 58 ≤ n) (hpos : pos ≤ (contextText c).length)
    (hcount : count.toNat ≤ maxRwCount) :
    Reads (contextText c) pos count left
      (procReadInfo buf c count (BitVec.ofNat 64 pos) left) := by
  have hL := length_contextText c
  have hposInt := toInt_word pos (by omega)
  have hposNat := toNat_word pos (by omega)
  have hslt : (BitVec.ofNat 64 pos).slt 0 = false := by
    rw [BitVec.slt_eq_decide, hposInt]
    simp
  have hlen := signExtend_int (contextText c).length (by omega)
  have hsle : (BitVec.ofNat 64 (contextText c).length).sle (BitVec.ofNat 64 pos) = true ↔
      (contextText c).length ≤ pos := by
    rw [BitVec.sle_iff_toInt_le, toInt_word _ (by omega), hposInt]
    omega
  simp only [procReadInfo, hslt, Bool.false_eq_true, if_false, contextSnprintf, hlen,
    clamp _ pos count hpos hL hcount, Bool.or_eq_true, hsle, decide_eq_true_iff]
  split
  · rename_i h
    exact .none (h.symm.imp id fun h => by omega)
  · rename_i h
    obtain ⟨hend, hzero⟩ := not_or.mp h
    have hcountPos : 0 < count.toNat := by
      apply Nat.pos_of_ne_zero
      intro h0
      exact hzero (BitVec.eq_of_toNat_eq h0)
    -- what is asked of `copy_to_user`, and what it leaves
    generalize hm : min count.toNat ((contextText c).length - pos) = m
    have hmPos : 0 < m := by omega
    have hmEnd : pos + m ≤ (contextText c).length := by omega
    rw [toNat_word m (by omega)]
    generalize hu : min left m = u
    have hum : u ≤ m := by omega
    rw [signExtend_int u (by omega), hposNat]
    have hslice := printed_slice buf c hn pos (m - u) (by omega)
    simp only [contextSnprintf] at hslice
    rw [hslice]
    split
    · rename_i he
      have hall : u = m := (word_inj u m (by omega) (by omega)).mp he
      rw [hall, Nat.sub_self, List.take_zero]
      exact .eacces m hzero hmPos (by omega) hmEnd
    · rename_i hne
      have hsome : u ≠ m := fun h => hne (h ▸ rfl)
      have hsum : BitVec.ofNat 64 pos + BitVec.ofNat 64 (m - u) = BitVec.ofNat 64 (pos + (m - u)) :=
        (BitVec.ofNat_add pos (m - u)).symm
      rw [word_sub m u hum (by omega), toInt_word (m - u) (by omega), hsum]
      exact .bytes m (m - u) hzero (by omega) (by omega) hmEnd

theorem InfoFile.read_reads (file : InfoFile) (c : ShownContext) (r : ReadCall) (pos : ℕ)
    (hpos : pos ≤ (contextText c).length) (hcount : r.count.toNat ≤ maxRwCount) :
    Reads (contextText c) pos r.count r.left (file.read c r (BitVec.ofNat 64 pos)) := by
  cases file with
  | scheduler => exact procReadInfo_reads (n := 511) r.buf c _ _ pos (by decide) hpos hcount
  | worker => exact procReadInfo_reads (n := 511) r.buf c _ _ pos (by decide) hpos hcount

/-- The reader has got the text up to its offset. -/
def Reader.UpTo (text : List Char) (s : Reader) : Prop :=
  ∃ pos, pos ≤ text.length ∧ s.ppos = BitVec.ofNat 64 pos ∧ s.delivered = text.take pos

theorem Reader.UpTo.read {file : InfoFile} {c : ShownContext} {s : Reader} {r : ReadCall}
    (h : s.UpTo (contextText c)) (hcount : r.count.toNat ≤ maxRwCount) :
    (Reader.read file c s r).UpTo (contextText c) := by
  obtain ⟨pos, hpos, hppos, htext⟩ := h
  have hr := file.read_reads c r pos hpos hcount
  rw [← hppos] at hr
  simp only [Reader.read]
  generalize file.read c r s.ppos = out at hr ⊢
  cases hr with
  | none => exact ⟨pos, hpos, rfl, by rw [List.append_nil, htext]⟩
  | eacces => exact ⟨pos, hpos, rfl, by rw [List.append_nil, htext]⟩
  | bytes asked n hne hn hasked hend =>
    refine ⟨pos + n, by omega, rfl, ?_⟩
    rw [htext, ← List.take_add]

/-- By induction on the reads, the last one first. -/
theorem Reader.upTo_reads (file : InfoFile) (c : ShownContext) (rs : List ReadCall)
    (hcount : ∀ r ∈ rs, r.count.toNat ≤ maxRwCount) :
    (Reader.reads file c rs).UpTo (contextText c) := by
  induction rs using List.reverseRecOn with
  | nil => exact ⟨0, Nat.zero_le _, rfl, rfl⟩
  | append_singleton rs r ih =>
    rw [Reader.reads, List.foldl_append]
    apply Reader.UpTo.read
    · exact ih fun r' hr' => hcount r' (List.mem_append_left _ hr')
    · exact hcount r (List.mem_append_right _ (List.mem_singleton.mpr rfl))

/-- After any reads, and for any read that follows: it fails only if it can copy nothing, and
otherwise returns the number of bytes that it has copied. -/
theorem info_reads_reassemble (file : InfoFile) (c : ShownContext) (rs : List ReadCall)
    (hcount : ∀ r ∈ rs, r.count.toNat ≤ maxRwCount) :
    (Reader.reads file c rs).delivered =
      (contextText c).take (Reader.reads file c rs).ppos.toNat ∧
    (Reader.reads file c rs).ppos.toNat ≤ (contextText c).length ∧
    ∀ r : ReadCall, r.count.toNat ≤ maxRwCount →
      ((file.read c r (Reader.reads file c rs).ppos).ret < 0 →
        (file.read c r (Reader.reads file c rs).ppos).ppos = (Reader.reads file c rs).ppos ∧
        ∃ offset n, (file.read c r (Reader.reads file c rs).ppos).source = some (offset, n) ∧
          n ≤ r.left) ∧
      (0 ≤ (file.read c r (Reader.reads file c rs).ppos).ret →
        (file.read c r (Reader.reads file c rs).ppos).ret =
          (file.read c r (Reader.reads file c rs).ppos).copied.length) ∧
      ((file.read c r (Reader.reads file c rs).ppos).ret = 0 ↔
        r.count = 0 ∨ (Reader.reads file c rs).delivered = contextText c) ∧
      ∀ offset n, (file.read c r (Reader.reads file c rs).ppos).source = some (offset, n) →
        offset + n ≤ (contextText c).length ∧ (contextText c).length < 512 := by
  obtain ⟨pos, hpos, hppos, htext⟩ := Reader.upTo_reads file c rs hcount
  have hL := length_contextText c
  have hposNat := toNat_word pos (by omega)
  rw [hppos, hposNat]
  refine ⟨htext, hpos, fun r hr => ?_⟩
  have hreads := file.read_reads c r pos hpos hr
  -- the whole text was delivered when the offset is its length
  have hwhole : (Reader.reads file c rs).delivered = contextText c ↔
      pos = (contextText c).length := by
    rw [htext]
    constructor
    · intro h
      have hlen := congrArg List.length h
      rw [List.length_take] at hlen
      omega
    · exact fun h => List.take_of_length_le h.ge
  rw [hwhole]
  generalize file.read c r (BitVec.ofNat 64 pos) = out at hreads
  cases hreads with
  | none h =>
    exact ⟨fun h => absurd h (Int.lt_irrefl 0), fun _ => rfl, ⟨fun _ => h, fun _ => rfl⟩,
      fun _ _ hsrc => by cases hsrc⟩
  | eacces asked hne hasked hleft hend =>
    refine ⟨fun _ => ⟨rfl, pos, asked, rfl, hleft⟩,
      fun h => absurd (show 0 ≤ -eacces from h) (by decide), ⟨fun h => (by cases h), fun h => ?_⟩,
      fun offset n hsrc => ?_⟩
    · rcases h with h | h
      · exact absurd h hne
      · omega
    · cases hsrc
      omega
  | bytes asked n hne hn hasked hend =>
    refine ⟨fun h => ?_, fun _ => ?_, ⟨fun h => ?_, fun h => ?_⟩, fun offset m hsrc => ?_⟩
    · dsimp only at h
      omega
    · have hlen : (((contextText c).drop pos).take n).length = n := by
        rw [List.length_take, List.length_drop]
        omega
      exact congrArg Nat.cast hlen.symm
    · dsimp only at h
      omega
    · rcases h with h | h
      · exact absurd h hne
      · omega
    · cases hsrc
      omega

/-- Whatever was on the stack before the call. -/
def dirtyBuf : Buffer 512 := ⟨List.replicate 512 '?', List.length_replicate⟩

/-- A read cut short, a failing one and a long one. -/
def threeReads : List ReadCall := [⟨dirtyBuf, 9, 3⟩, ⟨dirtyBuf, 9, 20⟩, ⟨dirtyBuf, 4096, 0⟩]

theorem info_reads_reassemble_three :
    (Reader.reads .worker ⟨7, .idle, -1⟩ threeReads).ppos = 36 ∧
    (Reader.reads .worker ⟨7, .idle, -1⟩ threeReads).delivered =
      (contextText ⟨7, .idle, -1⟩).take 36 ∧
    contextText ⟨7, .idle, -1⟩ = "Pid:\t7\nState:\tI (idle)\nSwitches:\t-1\n".toList := by
  have hppos : (Reader.reads .worker ⟨7, .idle, -1⟩ threeReads).ppos = 36 := by decide +kernel
  have h := (info_reads_reassemble .worker ⟨7, .idle, -1⟩ threeReads (by decide +kernel)).1
  rw [hppos] at h
  exact ⟨hppos, h, by decide +kernel⟩

end LinuxUms.Info
