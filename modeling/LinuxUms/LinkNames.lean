import LinuxUms.CString
import LinuxUms.ProcLayout
import LinuxUms.Transition

/-! The names of the links in the directory `workers` of a scheduler. They are numbers counted up
from a mark, `max_workers`, that goes back to 0 when the last link is removed. -/
namespace LinuxUms.Links

open CString ProcTree Transition

/-- The name that `snprintf` leaves in its buffer of twelve bytes. -/
theorem symlinkName_eq_snprintf (stack : Buffer 12) (n : ℕ) :
    (stack.snprintf (n := 11) (Nat.toDigits 10 n)).text = symlinkName n := by
  apply Buffer.snprintf_text
  intro h
  have hdigit : nul.isDigit = true := Nat.isDigit_of_mem_toDigits (by decide) (by decide) h
  revert hdigit
  decide

/-- Eleven digits are not cut off. -/
theorem symlinkName_eq (n : ℕ) (h : n < 10 ^ 11) : symlinkName n = Nat.toDigits 10 n := by
  have hlen : (Nat.toDigits 10 n).length ≤ 11 :=
    (Nat.length_toDigits_le_iff (by decide) (by decide)).mpr h
  exact List.take_of_length_le hlen

theorem symlinkName_inj (m n : ℕ) (hm : m < 10 ^ 11) (hn : n < 10 ^ 11)
    (h : symlinkName m = symlinkName n) : m = n := by
  rw [symlinkName_eq m hm, symlinkName_eq n hn] at h
  exact toDigits_injective h

inductive LinkAct where
  | registerWorker (c : Pid)
  | unregisterWorker (c : Pid)

/-- The pointer in worker `c` is a link of scheduler `p` that has not been removed. -/
def live (P : Procfs) (p c : Pid) : Bool :=
  match P.scheduler p, P.worker c with
  | some d, some w =>
    match w.workerLink with
    | .entry e => (P.tree.children d.workersDir).contains e
    | .null | .junk => false
  | _, _ => false

/-- Registrations that succeed, and removals of live links. -/
def linkStep (p : Pid) (P : Procfs) : LinkAct → Option Procfs
  | .registerWorker c =>
    match P.umsSchedulerProcRegisterWorker p c true with
    | (true, P) => some P
    | (false, _) => none
  | .unregisterWorker c =>
    if live P p c then some (P.umsSchedulerProcUnregisterWorker p c) else none

/-- `max_workers + 1` has at most eleven digits where it is printed. -/
def ElevenDigits (p : Pid) (P : Procfs) : LinkAct → Prop
  | .registerWorker _ => (P.scheduler p).all fun d => d.maxWorkers + 1 < 10 ^ 11
  | .unregisterWorker _ => True

instance (p : Pid) (P : Procfs) (a : LinkAct) : Decidable (ElevenDigits p P a) := by
  cases a <;> unfold ElevenDigits <;> infer_instance

/-- The links in the directory of scheduler `p`, numbered from 1 to `max_workers`. -/
structure Numbered (P : Procfs) (p : Pid) (d : SchedulerProcDirs) : Prop where
  dirs : P.scheduler p = some d
  ok : P.tree.Ok
  dir : d.workersDir ∈ P.tree.entries
  number : ∀ x, x :: d.workersDir ∈ P.tree.entries →
    ∃ n, 1 ≤ n ∧ n ≤ d.maxWorkers ∧ x.name = .link (symlinkName n)
  count : d.nWorkers = (P.tree.children d.workersDir).length
  mark : d.maxWorkers = 0 ↔ d.nWorkers = 0
  digits : d.maxWorkers < 10 ^ 11

namespace Numbered

variable {P : Procfs} {p : Pid} {d : SchedulerProcDirs}

/-- A name above the mark is not in use. -/
theorem next_free (h : Numbered P p d) (hlt : d.maxWorkers + 1 < 10 ^ 11) :
    P.tree.hasName d.workersDir (.link (symlinkName (d.maxWorkers + 1))) = false := by
  rw [Bool.eq_false_iff]
  intro hname
  obtain ⟨x, hx, hxn⟩ := Tree.hasName_iff.mp hname
  obtain ⟨n, -, hn, hxn'⟩ := h.number x hx
  have hsame : symlinkName n = symlinkName (d.maxWorkers + 1) :=
    ProcName.link.inj (hxn'.symm.trans hxn)
  have heq := symlinkName_inj n (d.maxWorkers + 1) (by omega) hlt hsame
  omega

theorem children_nodup (h : Numbered P p d) : (P.tree.children d.workersDir).Nodup :=
  h.ok.nodup.filter _

/-- No link is live exactly when the mark is 0. -/
theorem mark_iff (h : Numbered P p d) :
    d.maxWorkers = 0 ↔ P.tree.children d.workersDir = [] := by
  rw [h.mark, h.count, List.length_eq_zero_iff]

/-- A new link takes the number above the mark, which is moved. -/
theorem register (h : Numbered P p d) (w : WorkerProcDirs) (c : Pid)
    (hlt : d.maxWorkers + 1 < 10 ^ 11) (e : ProcPath)
    (he : e = P.newEntry d.workersDir (.link (symlinkName (d.maxWorkers + 1))) (some c)) :
    Numbered { P.withEntry e with
      worker := Function.update P.worker c (some w)
      scheduler := Function.update P.scheduler p
        (some { d with nWorkers := d.nWorkers + 1, maxWorkers := d.maxWorkers + 1 }) } p
      { d with nWorkers := d.nWorkers + 1, maxWorkers := d.maxWorkers + 1 } where
  dirs := Function.update_self _ _ _
  ok := he ▸ Procfs.withEntry_ok h.ok _ _ _ (Or.inr h.dir) (h.next_free hlt)
  dir := List.mem_cons_of_mem _ h.dir
  number x hx := by
    rcases List.mem_cons.mp hx with hnew | hold
    · rw [he, Procfs.newEntry] at hnew
      rw [(List.cons.inj hnew).1]
      exact ⟨d.maxWorkers + 1, Nat.le_add_left _ _, le_rfl, rfl⟩
    · obtain ⟨n, h1, hn, hname⟩ := h.number x hold
      exact ⟨n, h1, Nat.le_succ_of_le hn, hname⟩
  count := by
    have hchildren : (P.withEntry e).tree.children d.workersDir =
        e :: P.tree.children d.workersDir := by
      rw [he]
      exact Tree.children_cons_self _ _ _
    show d.nWorkers + 1 = ((P.withEntry e).tree.children d.workersDir).length
    rw [hchildren, List.length_cons, h.count]
  mark := ⟨fun h0 => absurd h0 (Nat.succ_ne_zero _), fun h0 => absurd h0 (Nat.succ_ne_zero _)⟩
  digits := hlt

/-- Of the others no link is removed, and the mark stays unless there is no other. -/
theorem unregister (h : Numbered P p d) (x : Entry ProcName (Option Pid))
    (hx : x :: d.workersDir ∈ P.tree.entries) (under : Bool) :
    Numbered { P.without (x :: d.workersDir) with
      scheduler := Function.update P.scheduler p (some { d with
        nWorkers := Procfs.decrement d.nWorkers
        maxWorkers := if Procfs.decrement d.nWorkers = 0 then 0 else d.maxWorkers })
      underflow := under } p
      { d with
        nWorkers := Procfs.decrement d.nWorkers
        maxWorkers := if Procfs.decrement d.nWorkers = 0 then 0 else d.maxWorkers } := by
  have hmem : x :: d.workersDir ∈ P.tree.children d.workersDir :=
    (Tree.mem_children _).mpr ⟨hx, x, rfl⟩
  have hchildren := Tree.children_remove_self (d := d.workersDir) x h.ok.nodup
  have hpos : 0 < d.nWorkers := by
    rw [h.count]
    exact List.length_pos_of_mem hmem
  have hdec : Procfs.decrement d.nWorkers = d.nWorkers - 1 := if_neg (by omega)
  have hcount : d.nWorkers - 1 =
      ((P.tree.remove (x :: d.workersDir)).children d.workersDir).length := by
    rw [hchildren, List.length_erase_of_mem hmem, h.count]
  have hmark : 0 < d.maxWorkers := by
    apply Nat.pos_of_ne_zero
    intro h0
    have := h.mark.mp h0
    omega
  rw [hdec]
  refine ⟨Function.update_self _ _ _, h.ok.remove _, ?_, ?_, hcount, ?_, ?_⟩
  · -- the directory is not below one of its links
    refine (Tree.mem_remove _).mpr ⟨h.dir, fun hs => ?_⟩
    have hlen : (x :: d.workersDir).length ≤ d.workersDir.length := hs.length_le
    rw [List.length_cons] at hlen
    omega
  · intro y hy
    obtain ⟨hold, hne⟩ := (Tree.mem_remove _).mp hy
    obtain ⟨n, h1, hn, hname⟩ := h.number y hold
    -- another link is left, so the mark is not reset
    have hleft : d.nWorkers - 1 ≠ 0 := by
      rw [hcount]
      exact (List.length_pos_of_mem ((Tree.mem_children _).mpr ⟨hy, y, rfl⟩)).ne'
    refine ⟨n, h1, ?_, hname⟩
    show n ≤ if d.nWorkers - 1 = 0 then 0 else d.maxWorkers
    rwa [if_neg hleft]
  · show (if d.nWorkers - 1 = 0 then 0 else d.maxWorkers) = 0 ↔ d.nWorkers - 1 = 0
    split <;> omega
  · show (if d.nWorkers - 1 = 0 then 0 else d.maxWorkers) < 10 ^ 11
    have := h.digits
    split <;> omega

theorem step {P' : Procfs} (h : Numbered P p d) (a : LinkAct) (hok : ElevenDigits p P a)
    (hs : linkStep p P a = some P') : ∃ d', Numbered P' p d' := by
  cases a with
  | registerWorker c =>
    have hlt : d.maxWorkers + 1 < 10 ^ 11 := by simpa [ElevenDigits, h.dirs] using hok
    cases hw : P.worker c with
    | none => simp [linkStep, Procfs.umsSchedulerProcRegisterWorker, h.dirs, hw] at hs
    | some w =>
      simp only [linkStep] at hs
      rcases P.umsSchedulerProcRegisterWorker_cases p c true d w h.dirs hw with
        ⟨heq, -⟩ | ⟨e, he, heq, -⟩
      · simp only [heq] at hs
        cases hs
      · simp only [heq] at hs
        cases hs
        exact ⟨_, h.register _ c hlt e he⟩
  | unregisterWorker c =>
    simp only [linkStep, live, h.dirs] at hs
    cases hw : P.worker c with
    | none => simp [hw] at hs
    | some w =>
      cases hl : w.workerLink with
      | null => simp [hw, hl] at hs
      | junk => simp [hw, hl] at hs
      | entry e =>
        simp only [hw, hl, List.contains_iff_mem] at hs
        split at hs
        · rename_i hmem
          obtain ⟨hmem, x, rfl⟩ := (Tree.mem_children _).mp hmem
          cases hs
          simp only [Procfs.umsSchedulerProcUnregisterWorker, h.dirs, hw, hl,
            Procfs.procRemove_entry _ _ hmem]
          exact ⟨_, h.unregister x hmem _⟩
        · cases hs

/-- A scheduler that has just been registered has no links. -/
theorem of_register {P₀ : Procfs} {f : SchedulerRegister} (hok : P₀.tree.Ok)
    (hdir : P₀.dirs.schedDir ∈ P₀.tree.entries)
    (hreg : P₀.umsSchedulerProcRegister p f = (true, P)) : ∃ d, Numbered P p d := by
  rcases Procfs.umsSchedulerProcRegister_cases hok hdir p f with
    ⟨n, -, heq⟩ | ⟨dir, Q, info, R, workers, hd, hQ, hinfo, hR, hworkers, hok', -, heq⟩
  · rw [hreg] at heq
    cases heq
  · rw [hreg] at heq
    cases heq
    -- the directory of the links has a serial number that no other entry has
    have hbelow (x : Entry ProcName (Option Pid)) :
        x :: workers ∉ (R.withEntry workers).tree.entries := by
      intro hx
      have hsuf : dir <:+ x :: workers := by
        rw [hworkers]
        exact (List.suffix_cons _ _).trans (List.suffix_cons _ _)
      have hlen : workers.length = dir.length + 1 ∧ info.length = dir.length + 1 := by
        rw [hworkers, hinfo]
        exact ⟨rfl, rfl⟩
      have hne (e : ProcPath) (he : e.length ≤ dir.length + 1) : x :: workers ≠ e := by
        intro h
        have hl := congrArg List.length h
        rw [List.length_cons] at hl
        omega
      simp only [Procfs.withEntry, hR, hQ, List.mem_cons] at hx
      rcases hx with hx | hx | hx | hx
      · exact hne workers (by omega) hx
      · exact hne info (by omega) hx
      · exact hne dir (by omega) hx
      · rw [hd] at hsuf
        exact hok.not_suffix _ rfl _ hx hsuf
    have hnone : (R.withEntry workers).tree.children workers = [] := by
      rw [List.eq_nil_iff_forall_not_mem]
      intro e he
      obtain ⟨hmem, x, rfl⟩ := (Tree.mem_children e).mp he
      exact hbelow x hmem
    refine ⟨_, Function.update_self _ _ _, hok', List.mem_cons_self, fun x hx => ?_, ?_, Iff.rfl,
      Nat.pow_pos (by decide)⟩
    · exact absurd hx (hbelow x)
    · show 0 = ((R.withEntry workers).tree.children workers).length
      rw [hnone, List.length_nil]

end Numbered

/-- The name of an entry in its directory. -/
def entryName (e : ProcPath) : Option ProcName := e.head?.map (·.name)

/-- From the registration of scheduler `p` on, in any procfs, as long as the numbers have eleven
digits. -/
theorem link_names_distinct (P₀ P₁ P : Procfs) (p : Pid) (f : SchedulerRegister)
    (hok : P₀.tree.Ok) (hdir : P₀.dirs.schedDir ∈ P₀.tree.entries)
    (hreg : P₀.umsSchedulerProcRegister p f = (true, P₁))
    (hr : Reach (linkStep p) (ElevenDigits p) P₁ P) :
    ∃ d, P.scheduler p = some d ∧
      ((P.tree.children d.workersDir).map entryName).Nodup ∧
      d.nWorkers = (P.tree.children d.workersDir).length ∧
      (∀ e ∈ P.tree.children d.workersDir, ∃ n, 1 ≤ n ∧ n ≤ d.maxWorkers ∧
        entryName e = some (.link (symlinkName n))) ∧
      (d.maxWorkers = 0 ↔ P.tree.children d.workersDir = []) ∧
      (d.maxWorkers + 1 < 10 ^ 11 →
        P.tree.hasName d.workersDir (.link (symlinkName (d.maxWorkers + 1))) = false) := by
  have hinv : ∃ d, Numbered P p d :=
    hr.invariant (fun P => ∃ d, Numbered P p d) (Numbered.of_register hok hdir hreg)
      fun _ a _ ⟨_, h⟩ hok hs => h.step a hok hs
  obtain ⟨d, h⟩ := hinv
  refine ⟨d, h.dirs, ?_, h.count, ?_, h.mark_iff, h.next_free⟩
  · -- two links of one name are one link
    refine List.Nodup.map_on ?_ h.children_nodup
    intro e he e' he' hname
    obtain ⟨hmem, x, rfl⟩ := (Tree.mem_children e).mp he
    obtain ⟨hmem', x', rfl⟩ := (Tree.mem_children e').mp he'
    rw [h.ok.names x x' d.workersDir hmem hmem' (Option.some.inj hname)]
  · intro e he
    obtain ⟨hmem, x, rfl⟩ := (Tree.mem_children e).mp he
    obtain ⟨n, h1, hn, hname⟩ := h.number x hmem
    exact ⟨n, h1, hn, congrArg some hname⟩

/-- Two workers of an open device. -/
def twoWorkers : Procfs :=
  (((Procfs.init.umsProcDirsInit 1 {}).2.umsWorkerProcRegister 5 {}).2.umsWorkerProcRegister 6 {}).2

theorem twoWorkers_layout : Layout twoWorkers (fun _ => none) := by
  have hregister (P : Procfs) (t : Pid) (lay : Layout P (fun _ => none)) :
      Layout (P.umsWorkerProcRegister t {}).2 (fun _ => none) := by
    rcases lay.registerWorker t {} with ⟨n, hn, h⟩ | ⟨n, d, -, h, -, lay'⟩
    · rw [h]
      exact lay.skip n hn
    · rw [h]
      exact lay'
  have hopen : Layout (Procfs.init.umsProcDirsInit 1 {}).2 (fun _ => none) := by
    rcases Layout.opened (P := Procfs.init) Tree.ok_empty rfl (fun _ => rfl) (fun _ => rfl) 1 {}
      with ⟨n, -, h⟩ | ⟨P, h, -, -, -, -, -, lay⟩
    · have htrue : (Procfs.init.umsProcDirsInit 1 {}).1 = true := by decide
      rw [h] at htrue
      cases htrue
    · rw [h]
      exact lay
  exact hregister _ 6 (hregister _ 5 hopen)

/-- Links 1 and 2 are made and link 1 is removed; the next has the number 3. -/
theorem link_names_distinct_third :
    ∃ P d, Reach (linkStep 9) (ElevenDigits 9) (twoWorkers.umsSchedulerProcRegister 9 {}).2 P ∧
      P.scheduler 9 = some d ∧ d.nWorkers = 2 ∧ d.maxWorkers = 3 ∧
      ((P.tree.children d.workersDir).map entryName).Nodup ∧
      P.tree.hasName d.workersDir (.link (symlinkName 4)) = false := by
  obtain ⟨P, hr, hcounts⟩ := Reach.exists_of_run (linkStep 9) (ElevenDigits 9)
    (twoWorkers.umsSchedulerProcRegister 9 {}).2
    [.registerWorker 5, .registerWorker 6, .unregisterWorker 5, .registerWorker 5]
    (fun P => (P.scheduler 9).map (fun d => (d.nWorkers, d.maxWorkers)) = some (2, 3))
    (by decide +kernel)
  have hreg : twoWorkers.umsSchedulerProcRegister 9 {} =
      (true, (twoWorkers.umsSchedulerProcRegister 9 {}).2) := Prod.ext (by decide +kernel) rfl
  obtain ⟨d, hd, hnames, -, -, -, hfree⟩ := link_names_distinct twoWorkers _ P 9 {}
    twoWorkers_layout.ok twoWorkers_layout.root.sched_mem hreg hr
  rw [hd, Option.map_some, Option.some.injEq, Prod.mk.injEq] at hcounts
  rw [hcounts.2] at hfree
  exact ⟨P, d, hr, hd, hcounts.1, hcounts.2, hnames, hfree (by decide)⟩

end LinuxUms.Links
