import LinuxUms.EnterCalls

namespace LinuxUms

open ProcTree Transition

namespace Enters

/-- An enter that gets its object and its directories gets its entry in the table, and finds its
list. -/
def Finds (s : Enters) : EnterAct → Prop
  | .enter t f id luck => luck.object = true → (s.proc.register t f).1 = true →
    luck.insert = true ∧ (s.lists.compLists id).isSome
  | _ => True

instance (s : Enters) (a : EnterAct) : Decidable (Finds s a) := by
  cases a <;> unfold Finds <;> infer_instance

structure OpenInv (s : Enters) : Prop where
  tidy : Tidy s.proc
  dirs : ∀ r t, s.proc.HasDirs t r ↔ t ∈ s.table r
  nodup : ∀ r, (s.table r).Nodup

structure ClosedInv (s : Enters) : Prop where
  ok : s.proc.tree.Ok
  entries : s.proc.tree.entries = []
  worker : ∀ t, s.proc.worker t = none
  scheduler : ∀ t, s.proc.scheduler t = none
  table : ∀ r, s.table r = []

structure Inv (s : Enters) : Prop where
  opened : s.opened = true → s.OpenInv
  closed : s.opened = false → s.ClosedInv

theorem inv_init : init.Inv :=
  ⟨fun h => (by cases h), fun _ => ⟨Tree.ok_empty, rfl, fun _ => rfl, fun _ => rfl, fun _ => rfl⟩⟩

section Steps

variable {s s' : Enters}

theorem Inv.of_open (h : s.OpenInv) (ho : s.opened = true) : s.Inv :=
  ⟨fun _ => h, fun hc => absurd (ho.symm.trans hc) Bool.noConfusion⟩

/-- The entries of one role become `l`, and so do its directories. -/
theorem OpenInv.retable (h : s.OpenInv) (r : Role) (l : List Pid)
    (htidy : Tidy s'.proc) (htable : s'.table = Function.update s.table r l) (hnodup : l.Nodup)
    (hown : ∀ u, s'.proc.HasDirs u r ↔ u ∈ l)
    (hother : ∀ u q, q ≠ r → (s'.proc.HasDirs u q ↔ s.proc.HasDirs u q)) : s'.OpenInv := by
  refine ⟨htidy, fun q u => ?_, fun q => ?_⟩
  · rw [htable]
    by_cases hq : q = r
    · rw [hq, Function.update_self]
      exact hown u
    · rw [Function.update_of_ne hq, hother u q hq]
      exact h.dirs q u
  · rw [htable]
    by_cases hq : q = r
    · rw [hq, Function.update_self]
      exact hnodup
    · rw [Function.update_of_ne hq]
      exact h.nodup q

/-- A context that is not there yet comes into its table with its directories. -/
theorem OpenInv.created (h : s.OpenInv) (t : Pid) (f : ProcRegister) (P : Procfs)
    (hreg : s.proc.register t f = (true, P)) : (s.created t f.role P).OpenInv := by
  obtain ⟨htidy, hnew, hhas⟩ := h.tidy.register f hreg
  have hnot : t ∉ s.table f.role := fun hmem => hnew ((h.dirs f.role t).mpr hmem)
  apply h.retable f.role (t :: s.table f.role) htidy rfl
    (List.nodup_cons.mpr ⟨hnot, h.nodup f.role⟩)
  · intro u
    show P.HasDirs u f.role ↔ _
    rw [hhas, List.mem_cons, h.dirs]
    by_cases hu : u = t <;> simp [hu]
  · intro u q hq
    show P.HasDirs u q ↔ _
    rw [hhas, if_neg (fun he => hq (Prod.mk.inj he).2)]

/-- Directories and entry go together. -/
theorem OpenInv.umsDestroy (h : s.OpenInv) (t : Pid) (r : Role) (o : UmsObject)
    (stray : Option ℕ) : (s.umsDestroy t r o stray).OpenInv := by
  obtain ⟨-, hhas⟩ := h.tidy.layout.unregister t r
  apply h.retable r ((s.table r).erase t) (h.tidy.unregister t r) rfl ((h.nodup r).erase t)
  · intro u
    show (s.proc.unregister t r).HasDirs u r ↔ _
    rw [hhas, (h.nodup r).mem_erase_iff, h.dirs]
    by_cases hu : u = t <;> simp [hu]
  · intro u q hq
    show (s.proc.unregister t r).HasDirs u q ↔ _
    rw [hhas, if_neg (fun he => hq (Prod.mk.inj he).2)]

/-- A registration that fails leaves nothing but used serial numbers. -/
theorem OpenInv.register_failed (h : s.OpenInv) {t : Pid} {f : ProcRegister} {P : Procfs}
    (hreg : s.proc.register t f = (false, P)) :
    ∃ n, s.proc.tree.next ≤ n ∧ P = s.proc.skip n := by
  rcases h.tidy.layout.register t f with ⟨n, hn, heq⟩ | ⟨Q, heq, -⟩
  · exact ⟨n, hn, congrArg Prod.snd (hreg.symm.trans heq)⟩
  · cases heq.symm.trans hreg

theorem OpenInv.enterUmsMode (h : s.OpenInv) (t : Pid) (f : ProcRegister) (id : ℤ)
    (luck : EnterLuck) (hok : Finds s (.enter t f id luck)) :
    (s.enterUmsMode t f id luck).2.OpenInv := by
  have hends := s.enterUmsMode_ends t f id luck
  generalize s.enterUmsMode t f id luck = r at hends
  cases hends with
  | noObject => exact h
  | notRegistered P hobj hreg =>
    obtain ⟨n, hn, rfl⟩ := h.register_failed hreg
    exact ⟨h.tidy.skip n hn, h.dirs, h.nodup⟩
  | notInserted P hobj hreg hins =>
    have hins' := (hok hobj (by rw [hreg])).1
    rw [hins] at hins'
    cases hins'
  | unknownList P hobj hreg => exact (h.created t f P hreg).umsDestroy t f.role _ _
  | noEvent P l hobj hreg =>
    have hc := h.created t f P hreg
    have hget : OpenInv { s.created t f.role P with lists := s.lists.getUmsComplist l } :=
      ⟨hc.tidy, hc.dirs, hc.nodup⟩
    exact hget.umsDestroy t f.role _ _
  | entered P l o hobj hreg =>
    have hc := h.created t f P hreg
    exact ⟨hc.tidy, hc.dirs, hc.nodup⟩

theorem enterUmsMode_opened (s : Enters) (t : Pid) (f : ProcRegister) (id : ℤ)
    (luck : EnterLuck) : (s.enterUmsMode t f id luck).2.opened = s.opened := by
  have hends := s.enterUmsMode_ends t f id luck
  generalize s.enterUmsMode t f id luck = r at hends
  cases hends <;> rfl

theorem ClosedInv.umsDevOpen (h : s.ClosedInv) (hc : s.opened = false) (pid : Pid)
    (dirs : DirsInit) (tables : Bool) : (s.umsDevOpen pid dirs tables).Inv := by
  rcases Layout.opened h.ok h.entries h.scheduler h.worker pid dirs with
    ⟨n, hn, heq⟩ | ⟨P, heq, hs, hw, -, -, -, hlay⟩
  · simp only [Enters.umsDevOpen, heq]
    refine ⟨fun ho => absurd (hc.symm.trans ho) Bool.noConfusion, fun _ => ?_⟩
    exact ⟨h.ok.mono n hn, h.entries, h.worker, h.scheduler, h.table⟩
  · simp only [Enters.umsDevOpen, heq]
    split
    · obtain ⟨htidy, hnone⟩ := Tidy.opened h.ok h.entries h.scheduler h.worker pid dirs heq
      refine .of_open ⟨htidy, fun r t => ?_, fun r => ?_⟩ rfl
      · show P.HasDirs t r ↔ t ∈ s.table r
        rw [h.table r]
        exact iff_of_false (hnone t r) List.not_mem_nil
      · show (s.table r).Nodup
        rw [h.table r]
        exact List.nodup_nil
    · refine ⟨fun ho => absurd (hc.symm.trans ho) Bool.noConfusion, fun _ => ?_⟩
      have hgone := Procfs.umsProcDirsDestroy_eq hlay.root hlay.below
      refine ⟨?_, ?_, fun t => ?_, fun t => ?_, h.table⟩
      · show P.umsProcDirsDestroy.tree.Ok
        rw [hgone]
        exact ⟨by simp, by simp, by simp, by simp, by simp⟩
      · show P.umsProcDirsDestroy.tree.entries = []
        rw [hgone]
      · show P.umsProcDirsDestroy.worker t = none
        rw [hgone]
        exact (congrFun hw t).trans (h.worker t)
      · show P.umsProcDirsDestroy.scheduler t = none
        rw [hgone]
        exact (congrFun hs t).trans (h.scheduler t)

theorem OpenInv.call (h : s.OpenInv) (ho : s.opened = true) (a : EnterAct) (hok : Finds s a)
    (hs : s.call a = some s') : s'.Inv := by
  cases a with
  | openDev pid dirs tables => cases hs
  | grace t => cases hs
  | create luck =>
    obtain ⟨r, -, rfl⟩ := Option.map_eq_some_iff.mp hs
    exact .of_open ⟨h.tidy, h.dirs, h.nodup⟩ ho
  | delete id =>
    obtain ⟨r, -, rfl⟩ := Option.map_eq_some_iff.mp hs
    exact .of_open ⟨h.tidy, h.dirs, h.nodup⟩ ho
  | enter t f id luck =>
    cases hs
    exact .of_open (h.enterUmsMode t f id luck hok) ((s.enterUmsMode_opened t f id luck).trans ho)
  | exit t ok =>
    simp only [Enters.call] at hs
    split at hs
    · cases hs
      exact .of_open (h.umsDestroy t .worker _ none) ho
    · cases hs
      exact .of_open h ho
  | link p c memory =>
    cases hs
    obtain ⟨htidy, hhas⟩ := h.tidy.registerWorker p c memory
    exact .of_open ⟨htidy, fun r t => (hhas t r).trans (h.dirs r t), h.nodup⟩ ho
  | unlink p c =>
    cases hs
    obtain ⟨htidy, hhas⟩ := h.tidy.unregisterWorker p c
    exact .of_open ⟨htidy, fun r t => (hhas t r).trans (h.dirs r t), h.nodup⟩ ho
  | release ws ss =>
    -- every context that has directories is in its table, so the destroy loops reach it
    simp only [Enters.call] at hs
    split at hs
    · rename_i hperm
      cases hs
      obtain ⟨hok, hentries, hw, hs⟩ := h.tidy.layout.released ws ss
        (fun t ht => (List.isPerm_iff.mp hperm.1).mem_iff.mpr ((h.dirs .worker t).mp ht))
        (fun t ht => (List.isPerm_iff.mp hperm.2).mem_iff.mpr ((h.dirs .scheduler t).mp ht))
      exact ⟨fun hc => (by cases hc), fun _ => ⟨hok, hentries, hw, hs, fun _ => rfl⟩⟩
    · cases hs

/-- A call is made on an open device. -/
theorem step_call {a : EnterAct} (hs : s.step a = some s') :
    (∃ pid dirs tables, a = .openDev pid dirs tables ∧ s.opened = false ∧
      s' = s.umsDevOpen pid dirs tables) ∨
    (∃ t, a = .grace t ∧ s' = { s with
      usage := Function.update s.usage t (s.usage t - 1)
      pending := s.pending.erase t }) ∨
    (s.opened = true ∧ s.call a = some s') := by
  have hcall (h : (if s.opened then s.call a else none) = some s') :
      s.opened = true ∧ s.call a = some s' := by
    split at h
    · rename_i ho
      exact ⟨ho, h⟩
    · cases h
  cases a with
  | openDev pid dirs tables =>
    simp only [Enters.step] at hs
    split at hs
    · cases hs
    · rename_i ho
      exact Or.inl ⟨pid, dirs, tables, rfl, Bool.eq_false_iff.mpr ho, (Option.some.inj hs).symm⟩
  | grace t =>
    simp only [Enters.step] at hs
    split at hs
    · exact Or.inr (Or.inl ⟨t, rfl, (Option.some.inj hs).symm⟩)
    · cases hs
  | create => exact Or.inr (Or.inr (hcall hs))
  | delete => exact Or.inr (Or.inr (hcall hs))
  | enter => exact Or.inr (Or.inr (hcall hs))
  | exit => exact Or.inr (Or.inr (hcall hs))
  | link => exact Or.inr (Or.inr (hcall hs))
  | unlink => exact Or.inr (Or.inr (hcall hs))
  | release => exact Or.inr (Or.inr (hcall hs))

theorem Inv.step (h : s.Inv) (a : EnterAct) (hok : Finds s a) (hs : s.step a = some s') :
    s'.Inv := by
  rcases step_call hs with ⟨pid, dirs, tables, rfl, hc, rfl⟩ | ⟨t, rfl, rfl⟩ | ⟨ho, hs⟩
  · exact (h.closed hc).umsDevOpen hc pid dirs tables
  · refine ⟨fun ho => ?_, fun hc => ?_⟩
    · have hop := h.opened ho
      exact ⟨hop.tidy, hop.dirs, hop.nodup⟩
    · have hcl := h.closed hc
      exact ⟨hcl.ok, hcl.entries, hcl.worker, hcl.scheduler, hcl.table⟩
  · exact (h.opened ho).call ho a hok hs

/-- A destroyed context has left its table, and a callback is to drop the one reference that it had.
-/
theorem umsDestroy_created (s : Enters) (t : Pid) (r : Role) (P : Procfs) (L : Ids.State)
    (o : UmsObject) (stray : Option ℕ) :
    let s' := { s.created t r P with lists := L }.umsDestroy t r o stray
    s'.table = s.table ∧ s'.usage = Function.update s.usage t (s.usage t + 1) ∧
      s'.pending = t :: s.pending := by
  refine ⟨?_, rfl, rfl⟩
  show Function.update (Function.update s.table r (t :: s.table r)) r
    ((Function.update s.table r (t :: s.table r) r).erase t) = s.table
  rw [Function.update_self, Function.update_idem, List.erase_cons_head, Function.update_eq_self]

/-- What a failing enter is to leave as it was. -/
structure Restores (s s' : Enters) : Prop where
  table : s'.table = s.table
  entries : s'.proc.tree.entries = s.proc.tree.entries
  usage : s'.usage = s.usage

/-- The ways in which an enter fails, by what they leave. -/
theorem OpenInv.failed (h : s.OpenInv) {t : Pid} {f : ProcRegister} {id : ℤ} {luck : EnterLuck}
    {e : EnterError} (heq : s.enterUmsMode t f id luck = (some e, s')) :
    s'.table = s.table ∧ (s'.proc.tree.entries = s.proc.tree.entries ↔ e ≠ .insert) ∧
    ((luck.object = false ∧ s' = s ∧ e = .enomem) ∨
      luck.object = true ∧ s'.usage = Function.update s.usage t (s.usage t + 1) ∧
        (s'.pending = s.pending ∨ s'.pending = t :: s.pending)) := by
  have hends := s.enterUmsMode_ends t f id luck
  rw [heq] at hends
  cases hends with
  | noObject hobj => exact ⟨rfl, by simp, Or.inl ⟨hobj, rfl, rfl⟩⟩
  | notRegistered P hobj hreg =>
    -- the error path of the registration has removed what it had made
    obtain ⟨n, hn, rfl⟩ := h.register_failed hreg
    exact ⟨rfl, iff_of_true rfl (by simp), Or.inr ⟨hobj, rfl, Or.inl rfl⟩⟩
  | notInserted P hobj hreg hins =>
    -- the directories stay behind
    obtain ⟨d, es, -, hentries, -⟩ := h.tidy.register_eq f hreg
    refine ⟨rfl, iff_of_false (fun hsame => ?_) (by simp), Or.inr ⟨hobj, rfl, Or.inl rfl⟩⟩
    have hforget : (P.forget t f.role).tree = P.tree := by cases f.role <;> rfl
    have hlen := congrArg List.length (hforget ▸ hsame)
    rw [hentries, List.length_append, List.length_cons] at hlen
    omega
  | unknownList P hobj hreg hins hid =>
    obtain ⟨htable, husage, hpending⟩ := s.umsDestroy_created t f.role P s.lists
      (newObject f.role) luck.stray
    exact ⟨htable, iff_of_true (h.tidy.register_unregister f hreg) (by simp),
      Or.inr ⟨hobj, husage, Or.inr hpending⟩⟩
  | noEvent P l hobj hreg hins hid =>
    obtain ⟨htable, husage, hpending⟩ := s.umsDestroy_created t f.role P (s.lists.getUmsComplist l)
      (withComplist (newObject f.role) l) luck.stray
    exact ⟨htable, iff_of_true (h.tidy.register_unregister f hreg) (by simp),
      Or.inr ⟨hobj, husage, Or.inr hpending⟩⟩

end Steps

/-- In every run in which enters find their lists and get into their tables, the directories are
those of the contexts. A failing enter restores everything exactly if there was no memory for its
object. The tables are as before in any case, the entries of procfs exactly if it was not the
insertion that failed, and the references to tasks once the callback has run that the enter has
queued, if it has. -/
theorem failed_enter_restores (s : Enters) (hr : Reach step Finds init s)
    (ho : s.opened = true) :
    (∀ r t, s.proc.tree.hasName (s.proc.dirOf r) (.pid t) = true ↔ t ∈ s.table r) ∧
    ∀ t f id luck e s', s.enterUmsMode t f id luck = (some e, s') →
      (s.Restores s' ↔ luck.object = false) ∧ s'.table = s.table ∧
      (s'.proc.tree.entries = s.proc.tree.entries ↔ e ≠ .insert) ∧
      (s'.pending ≠ s.pending → ∃ s'', s'.step (.grace t) = some s'' ∧ s''.usage = s.usage ∧
        s''.pending = s.pending) := by
  have hinv : s.Inv := hr.invariant Inv inv_init fun _ a _ h hok hs => h.step a hok hs
  have h := hinv.opened ho
  refine ⟨fun r t => h.tidy.hasName_iff.trans (h.dirs r t), ?_⟩
  intro t f id luck e s' heq
  obtain ⟨htable, hentries, hrest⟩ := h.failed heq
  rcases hrest with ⟨hobj, rfl, -⟩ | ⟨hobj, husage, hpending⟩
  · exact ⟨iff_of_true ⟨rfl, rfl, rfl⟩ hobj, htable, hentries, fun hne => absurd rfl hne⟩
  · refine ⟨iff_of_false (fun hsame => ?_) (by simp [hobj]), htable, hentries, fun hne => ?_⟩
    · have hone := congrFun (husage.symm.trans hsame.usage) t
      rw [Function.update_self] at hone
      omega
    · -- one reference more, and one callback to drop it
      have hqueued := hpending.resolve_left hne
      refine ⟨_, if_pos (by simp [hqueued]), ?_, ?_⟩
      · show Function.update s'.usage t (s'.usage t - 1) = s.usage
        rw [husage, Function.update_self, Function.update_idem, Nat.add_sub_cancel,
          Function.update_eq_self]
      · show s'.pending.erase t = s.pending
        rw [hqueued, List.erase_cons_head]

/-- A scheduler with a link to a worker. Of two more enters, one finds no memory for its scheduler
and the other none for its startup event. -/
theorem failed_enter_restores_second :
    ∃ s s' s'', Reach step Finds init s ∧ s.table .worker = [5] ∧ s.table .scheduler = [9] ∧
      s.proc.tree.entries.length = 9 ∧
      s.enterUmsMode 10 (.scheduler {}) 1 { object := false } = (some .enomem, s') ∧
      s.Restores s' ∧
      s.enterUmsMode 10 (.scheduler {}) 1 { startup := false } = (some .enomem, s'') ∧
      s''.table = s.table ∧ s''.proc.tree.entries = s.proc.tree.entries ∧
      ∃ s₃, s''.step (.grace 10) = some s₃ ∧ s₃.usage = s.usage ∧ s₃.pending = s.pending := by
  obtain ⟨s, hr, ho, hw, hs, hlen, herr, herr', hpending⟩ := Reach.exists_of_run step Finds init
    [.openDev 1 {} true, .create ⟨true, .id 1, true⟩, .enter 5 (.worker {}) 1 {},
      .enter 9 (.scheduler {}) 1 {}, .link 9 5 true]
    (fun s => s.opened = true ∧ s.table .worker = [5] ∧ s.table .scheduler = [9] ∧
      s.proc.tree.entries.length = 9 ∧
      (s.enterUmsMode 10 (.scheduler {}) 1 { object := false }).1 = some .enomem ∧
      (s.enterUmsMode 10 (.scheduler {}) 1 { startup := false }).1 = some .enomem ∧
      (s.enterUmsMode 10 (.scheduler {}) 1 { startup := false }).2.pending ≠ s.pending)
    (by decide +kernel)
  have hall := (failed_enter_restores s hr ho).2
  obtain ⟨hnone, -⟩ := hall 10 (.scheduler {}) 1 { object := false } .enomem _ (Prod.ext herr rfl)
  obtain ⟨-, htable, hentries, hgrace⟩ := hall 10 (.scheduler {}) 1 { startup := false } .enomem _
    (Prod.ext herr' rfl)
  exact ⟨s, _, _, hr, hw, hs, hlen, Prod.ext herr rfl, hnone.mpr rfl, Prod.ext herr' rfl, htable,
    hentries.mpr (by simp), hgrace hpending⟩

/-- The directory of a scheduler cannot be made, and the reference to its task is never dropped.
The entry of a worker cannot be inserted, and its directory stays without it. -/
theorem failed_enter_leaves :
    (∃ s, Reach step (fun _ _ => True) init s ∧
      (s.enterUmsMode 10 (.scheduler { schedulerDir := false }) 1 {}).1 = some .enomem ∧
      s.usage 10 = 0 ∧
      (s.enterUmsMode 10 (.scheduler { schedulerDir := false }) 1 {}).2.usage 10 = 1 ∧
      (s.enterUmsMode 10 (.scheduler { schedulerDir := false }) 1 {}).2.pending = []) ∧
    ∃ s, Reach step (fun _ _ => True) init s ∧ s.opened = true ∧
      s.proc.tree.hasName (s.proc.dirOf .worker) (.pid 5) = true ∧ s.table .worker = [] := by
  constructor
  · exact Reach.exists_of_run step (fun _ _ => True) init
      [.openDev 1 {} true, .create ⟨true, .id 1, true⟩]
      (fun s => (s.enterUmsMode 10 (.scheduler { schedulerDir := false }) 1 {}).1 =
          some .enomem ∧
        s.usage 10 = 0 ∧
        (s.enterUmsMode 10 (.scheduler { schedulerDir := false }) 1 {}).2.usage 10 = 1 ∧
        (s.enterUmsMode 10 (.scheduler { schedulerDir := false }) 1 {}).2.pending = [])
      (by decide +kernel)
  · exact Reach.exists_of_run step (fun _ _ => True) init
      [.openDev 1 {} true, .create ⟨true, .id 1, true⟩,
        .enter 5 (.worker {}) 1 { insert := false }]
      (fun s => s.opened = true ∧
        s.proc.tree.hasName (s.proc.dirOf .worker) (.pid 5) = true ∧ s.table .worker = [])
      (by decide +kernel)

end Enters

namespace Enters

variable {s s' : Enters}

theorem umsDestroy_counted (h : Ids.Counted s.lists) (t : Pid) (r : Role) (o : UmsObject)
    (stray : Option ℕ) : Ids.Counted (s.umsDestroy t r o stray).lists :=
  h.putPointer _

theorem enterUmsMode_counted (h : Ids.Counted s.lists) (t : Pid) (f : ProcRegister) (id : ℤ)
    (luck : EnterLuck) : Ids.Counted (s.enterUmsMode t f id luck).2.lists := by
  have hends := s.enterUmsMode_ends t f id luck
  generalize s.enterUmsMode t f id luck = r at hends
  cases hends with
  | noObject => exact h
  | notRegistered => exact h
  | notInserted => exact h
  | unknownList P =>
    have hcreated : Ids.Counted (s.created t f.role P).lists := h
    exact umsDestroy_counted hcreated t f.role _ _
  | noEvent P l =>
    have hget : Ids.Counted
      { s.created t f.role P with lists := s.lists.getUmsComplist l : Enters }.lists := h.get l
    exact umsDestroy_counted hget t f.role _ _
  | entered P l => exact h.get l

theorem step_counted (h : Ids.Counted s.lists) (a : EnterAct) (hs : s.step a = some s') :
    Ids.Counted s'.lists := by
  rcases step_call hs with ⟨pid, dirs, tables, rfl, hc, rfl⟩ | ⟨t, rfl, rfl⟩ | ⟨ho, hs⟩
  · unfold umsDevOpen
    split
    · exact h
    · split
      · exact .init
      · exact h
  · exact h
  · cases a with
    | openDev pid dirs tables => cases hs
    | grace t => cases hs
    | create luck =>
      obtain ⟨⟨ret, L⟩, hc, rfl⟩ := Option.map_eq_some_iff.mp hs
      exact h.create luck ret hc
    | delete id =>
      obtain ⟨⟨ret, L⟩, hd, rfl⟩ := Option.map_eq_some_iff.mp hs
      exact h.delete id ret hd
    | enter t f id luck =>
      cases hs
      exact enterUmsMode_counted h t f id luck
    | exit t ok =>
      simp only [call] at hs
      split at hs
      · cases hs
        exact umsDestroy_counted h t .worker _ none
      · cases hs
        exact h
    | link p c memory =>
      cases hs
      exact h
    | unlink p c =>
      cases hs
      exact h
    | release ws ss =>
      simp only [call] at hs
      split at hs
      · cases hs
        exact h
      · cases hs

/-- In every state, after whatever calls: an enter that finds its list, if it comes to look for it,
fails without a trace in the lists, and one that does not reads the member that was never assigned.
-/
theorem failed_enter_drops_own (s : Enters) (hr : Reach step (fun _ _ => True) init s) (t : Pid)
    (f : ProcRegister) (id : ℤ) (luck : EnterLuck) (e : EnterError) (s' : Enters)
    (heq : s.enterUmsMode t f id luck = (some e, s')) :
    ((luck.object = true → (s.proc.register t f).1 = true → luck.insert = true →
        (s.lists.compLists id).isSome) →
      s'.junk = s.junk ∧ s'.lists.complist = s.lists.complist ∧
        s'.lists.compLists = s.lists.compLists) ∧
    (luck.object = true → (s.proc.register t f).1 = true → luck.insert = true →
      s.lists.compLists id = none → s'.junk = (f.role, .complist) :: s.junk) := by
  have hcounted : Ids.Counted s.lists := hr.invariant (fun s => Ids.Counted s.lists) .init
    fun _ a _ h _ hs => step_counted h a hs
  have hends := s.enterUmsMode_ends t f id luck
  rw [heq] at hends
  cases hends with
  | noObject hobj =>
    refine ⟨fun _ => ⟨rfl, rfl, rfl⟩, fun hyes => ?_⟩
    rw [hobj] at hyes
    cases hyes
  | notRegistered P hobj hreg =>
    refine ⟨fun _ => ⟨rfl, rfl, rfl⟩, fun _ hyes => ?_⟩
    rw [hreg] at hyes
    cases hyes
  | notInserted P hobj hreg hins =>
    refine ⟨fun _ => ⟨rfl, rfl, rfl⟩, fun _ _ hyes => ?_⟩
    rw [hins] at hyes
    cases hyes
  | unknownList P hobj hreg hins hnone =>
    refine ⟨fun hid => ?_, fun _ _ _ _ => ?_⟩
    · have hsome := hid hobj (by rw [hreg]) hins
      rw [hnone] at hsome
      cases hsome
    · show ((destroyReads f.role).filter (· ∉ (newObject f.role).assigned)).map (f.role, ·) ++
        s.junk = (f.role, .complist) :: s.junk
      have hread :
          (destroyReads f.role).filter (· ∉ (newObject f.role).assigned) = [.complist] := by
        cases f.role <;> rfl
      rw [hread, List.map_singleton, List.singleton_append]
  | noEvent P l hobj hreg hins hfound =>
    obtain ⟨k, hk, -⟩ := hcounted.table id l hfound
    -- by now every member that is read has been assigned
    have hassigned : (destroyReads f.role).filter
        (· ∉ (withComplist (newObject f.role) l).assigned) = [] := by
      cases f.role <;> rfl
    have hlists : ({ s.created t f.role P with lists := s.lists.getUmsComplist l }.umsDestroy t
        f.role (withComplist (newObject f.role) l) luck.stray).lists = s.lists :=
      hcounted.put_get hk
    refine ⟨fun _ => ⟨?_, ?_, ?_⟩, fun _ _ _ hnone => ?_⟩
    · show ((destroyReads f.role).filter
        (· ∉ (withComplist (newObject f.role) l).assigned)).map (f.role, ·) ++ s.junk = s.junk
      rw [hassigned, List.map_nil, List.nil_append]
    · rw [hlists]
    · rw [hlists]
    · rw [hnone] at hfound
      cases hfound

/-- A list with a worker, and a scheduler whose startup event cannot be allocated. -/
theorem failed_enter_drops_own_event :
    ∃ s s', Reach step (fun _ _ => True) init s ∧ s.lists.complist 0 = some ⟨1, 2⟩ ∧
      s.enterUmsMode 10 (.scheduler {}) 1 { startup := false } = (some .enomem, s') ∧
      s'.junk = s.junk ∧ s'.lists.complist = s.lists.complist ∧
      s'.lists.compLists = s.lists.compLists := by
  obtain ⟨s, hr, hlist, hid, herr⟩ := Reach.exists_of_run step (fun _ _ => True) init
    [.openDev 1 {} true, .create ⟨true, .id 1, true⟩, .enter 5 (.worker {}) 1 {}]
    (fun s => s.lists.complist 0 = some ⟨1, 2⟩ ∧ (s.lists.compLists 1).isSome = true ∧
      (s.enterUmsMode 10 (.scheduler {}) 1 { startup := false }).1 = some .enomem)
    (by decide +kernel)
  exact ⟨s, _, hr, hlist, Prod.ext herr rfl, (failed_enter_drops_own s hr 10 (.scheduler {}) 1
    { startup := false } .enomem _ (Prod.ext herr rfl)).1 fun _ _ _ => hid⟩

/-- No list has the id 9. The worker's `complist` was never assigned; it leads to the list of a
scheduler, which loses a reference. -/
theorem unknown_list_drops_other :
    ∃ s, Reach step (fun _ _ => True) init s ∧ s.junk = [] ∧
      s.lists.complist 0 = some ⟨1, 2⟩ ∧
      (s.enterUmsMode 5 (.worker {}) 9 { stray := some 0 }).1 = some .einval ∧
      (s.enterUmsMode 5 (.worker {}) 9 { stray := some 0 }).2.junk = [(.worker, .complist)] ∧
      (s.enterUmsMode 5 (.worker {}) 9 { stray := some 0 }).2.lists.complist 0 = some ⟨1, 1⟩ :=
  Reach.exists_of_run step (fun _ _ => True) init
    [.openDev 1 {} true, .create ⟨true, .id 1, true⟩, .enter 10 (.scheduler {}) 1 {}]
    (fun s => s.junk = [] ∧ s.lists.complist 0 = some ⟨1, 2⟩ ∧
      (s.enterUmsMode 5 (.worker {}) 9 { stray := some 0 }).1 = some .einval ∧
      (s.enterUmsMode 5 (.worker {}) 9 { stray := some 0 }).2.junk = [(.worker, .complist)] ∧
      (s.enterUmsMode 5 (.worker {}) 9 { stray := some 0 }).2.lists.complist 0 = some ⟨1, 1⟩)
    (by decide +kernel)

end Enters

end LinuxUms
