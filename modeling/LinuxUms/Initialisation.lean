import LinuxUms.References

/-! The list heads behind the id table. A head is a ring from `INIT_LIST_HEAD` on, and in an
orderly run nobody but the creator reaches it before. -/
namespace LinuxUms

open KernelList

/-- A place that holds neither an unfinished list nor an unreported batch. -/
def RegPc.plain : RegPc → Bool
  | .creating _ _ _ | .reporting _ _ => false
  | _ => true

namespace Registry

variable {s s' : Registry} {r : Node → Option (List Node)} {t : Pid} {a : Addr}

/-- The rings in the heap, `r` being their contents. -/
structure HeadsOk (s : Registry) (r : Node → Option (List Node)) : Prop where
  rings : RingFamily s.heap r (fun _ => none)
  ready : ∀ a, s.ready a = true → r (.head a) ≠ none
  building : ∀ t a i ops, s.pc t = .creating a i ops →
    (r (.head a) = none ↔ .initListHead ∈ ops)
  fresh : ∀ a, s.nextAddr ≤ a → r (.head a) = none
  member : ∀ n l, r n = some l → ∀ x ∈ l, ∃ c, x = .context c ∧ c < s.nextContext
  sentinel : ∀ c, r (.context c) ≠ none → c < s.nextContext
  reporting : ∀ t a c, s.pc t = .reporting a c → r (.context c) ≠ none
  reporter : ∀ t t' a a' c, s.pc t = .reporting a c → s.pc t' = .reporting a' c → t = t'

/-- A head is a member of no ring. -/
theorem HeadsOk.head_not_mem (h : s.HeadsOk r) (ha : r (.head a) = none) (n : Node) (l : List Node)
    (hn : r n = some l) : .head a ∉ n :: l := by
  intro hm
  rcases List.mem_cons.mp hm with he | hm
  · rw [← he, ha] at hn
    cases hn
  · obtain ⟨c, hc, -⟩ := h.member n l hn _ hm
    cases hc

/-- The rings hold contexts. -/
theorem HeadsOk.contexts (h : s.HeadsOk r) (n : Node) (l : List Node) (hn : r n = some l) :
    ∃ ms : List Pid, l = ms.map .context := by
  have hall := h.member n l hn
  clear hn
  induction l with
  | nil => exact ⟨[], rfl⟩
  | cons x l ih =>
    obtain ⟨c, rfl, -⟩ := hall x List.mem_cons_self
    obtain ⟨ms, rfl⟩ := ih (fun y hy => hall y (List.mem_cons_of_mem _ hy))
    exact ⟨c :: ms, rfl⟩

/-- A step that leaves the heap alone. -/
theorem HeadsOk.frame (h : s.HeadsOk r) (hh : s'.heap = s.heap)
    (hn : s'.nextContext = s.nextContext) (ha : s.nextAddr ≤ s'.nextAddr)
    (hr : ∀ a, s'.ready a = true → s.ready a = true ∨ r (.head a) ≠ none)
    (hpc : ∀ u, s'.pc u = s.pc u ∨ (s'.pc u).plain = true) : s'.HeadsOk r := by
  have hback (u : Pid) (p : RegPc) (hp : p.plain = false) (hu : s'.pc u = p) : s.pc u = p := by
    rcases hpc u with he | hq
    · rw [← he]
      exact hu
    · rw [hu, hp] at hq
      cases hq
  constructor
  · rw [hh]
    exact h.rings
  · intro a ha'
    rcases hr a ha' with ho | hne
    · exact h.ready a ho
    · exact hne
  · exact fun u a i ops hu => h.building u a i ops (hback u _ rfl hu)
  · exact fun a ha' => h.fresh a (Int.le_trans ha ha')
  · rw [hn]
    exact h.member
  · rw [hn]
    exact h.sentinel
  · exact fun u a c hu => h.reporting u a c (hback u _ rfl hu)
  · exact fun u v a a' c hu hv => h.reporter u v a a' c (hback u _ rfl hu) (hback v _ rfl hv)

/-- The same for a step that only moves one thread. -/
theorem HeadsOk.moved (h : s.HeadsOk r) (p : RegPc) (hp : p.plain = true) (hh : s'.heap = s.heap)
    (hn : s'.nextContext = s.nextContext) (ha : s'.nextAddr = s.nextAddr)
    (hr : s'.ready = s.ready) (hpc : s'.pc = Function.update s.pc t p) : s'.HeadsOk r := by
  apply h.frame hh hn (Int.le_of_eq ha.symm)
  · intro a ha'
    rw [hr] at ha'
    exact Or.inl ha'
  · intro u
    rw [hpc]
    by_cases hu : u = t
    · subst hu
      exact Or.inr (by rw [Function.update_self]; exact hp)
    · exact Or.inl (Function.update_of_ne hu p s.pc)

theorem HeadsOk.publish (h : s.HeadsOk r) (i : ListId) : (s.publish t i).HeadsOk r := by
  have hfresh := h.fresh s.nextAddr (Int.le_refl _)
  have hpc (u : Pid) (hu : u ≠ t) : (s.publish t i).pc u = s.pc u := by
    simp [Registry.publish, Registry.setPc, hu]
  have hself : (s.publish t i).pc t = .creating s.nextAddr i umsComplistInit := by
    simp [Registry.publish, Registry.setPc]
  have hback (u : Pid) (b : Addr) (c : Pid) (hu : (s.publish t i).pc u = .reporting b c) :
      s.pc u = .reporting b c := by
    by_cases hut : u = t
    · rw [hut, hself] at hu
      cases hu
    · rw [← hpc u hut]
      exact hu
  refine ⟨?_, h.ready, ?_, ?_, h.member, h.sentinel, ?_, ?_⟩
  · -- the new head is written, and it is in no ring
    apply h.rings.restrict _ r (fun _ _ hn => hn) (fun _ _ hp => by cases hp)
    intro n l x hn hx
    have hne : x ≠ .head s.nextAddr := by
      rintro rfl
      exact h.head_not_mem hfresh n l hn hx
    simp [Registry.publish, hne]
  · intro u b j ops hu
    by_cases hut : u = t
    · rw [hut, hself, RegPc.creating.injEq] at hu
      obtain ⟨rfl, -, rfl⟩ := hu
      simp [hfresh, umsComplistInit]
    · rw [hpc u hut] at hu
      exact h.building u b j ops hu
  · exact fun b hb => h.fresh b (Int.le_trans (Int.le_of_lt (Int.lt_succ _)) hb)
  · exact fun u b c hu => h.reporting u b c (hback u b c hu)
  · exact fun u v b b' c hu hv => h.reporter u v b b' c (hback u b c hu) (hback v b' c hv)

/-- A step of the creator, once the rings after it are known. -/
theorem HeadsOk.build (h : s.HeadsOk r) (hi : s.Inv) {i : ListId} {op : InitOp}
    {ops : List InitOp} (ht : s.pc t = .creating a i (op :: ops)) (h' : Heap Node)
    (o : Addr → Option UmsComplist) (r' : Node → Option (List Node))
    (hrings : RingFamily h' r' (fun _ => none)) (hoff : ∀ n, n ≠ .head a → r' n = r n)
    (hon : r' (.head a) = none ↔ .initListHead ∈ ops)
    (hmem : ∀ l, r' (.head a) = some l → ∀ x ∈ l, ∃ c, x = .context c ∧ c < s.nextContext) :
    ({ s with heap := h', obj := o }.setPc t (.creating a i ops)).HeadsOk r' := by
  obtain ⟨hready, -, -, -, hcr⟩ := hi.alone ht
  have hk := hi.knows t
  rw [ht] at hk
  have hhead (b : Addr) (hb : b ≠ a) : r' (.head b) = r (.head b) := hoff _ (by simp [hb])
  have hctx (c : Pid) : r' (.context c) = r (.context c) := hoff _ (by simp)
  have hpc (u : Pid) (hu : u ≠ t) (p : RegPc)
      (hp : ({ s with heap := h', obj := o }.setPc t (.creating a i ops)).pc u = p) :
      s.pc u = p := by
    simpa [Registry.setPc, hu] using hp
  have hself : ({ s with heap := h', obj := o }.setPc t (.creating a i ops)).pc t =
      .creating a i ops := by simp [Registry.setPc]
  have hback (u : Pid) (b : Addr) (c : Pid)
      (hu : ({ s with heap := h', obj := o }.setPc t (.creating a i ops)).pc u =
        .reporting b c) : s.pc u = .reporting b c := by
    by_cases hut : u = t
    · rw [hut, hself] at hu
      cases hu
    · exact hpc u hut _ hu
  -- the list under construction is not ready, and no other head has changed
  refine ⟨hrings, ?_, ?_, ?_, ?_, ?_, ?_, ?_⟩
  · intro b hb
    have hba : b ≠ a := by
      rintro rfl
      exact Bool.false_ne_true (hready.symm.trans hb)
    rw [hhead b hba]
    exact h.ready b hb
  · intro u b j os hu
    by_cases hut : u = t
    · rw [hut, hself, RegPc.creating.injEq] at hu
      obtain ⟨rfl, -, rfl⟩ := hu
      exact hon
    · have hu' := hpc u hut _ hu
      have hba : b ≠ a := by
        rintro rfl
        exact hut (hcr u j os hu')
      rw [hhead b hba]
      exact h.building u b j os hu'
  · intro b hb
    have hba : b ≠ a := by
      rintro rfl
      exact Int.not_lt.mpr hb hk.1
    rw [hhead b hba]
    exact h.fresh b hb
  · intro n l hn x hx
    by_cases hna : n = .head a
    · subst hna
      exact hmem l hn x hx
    · exact h.member n l ((hoff n hna).symm.trans hn) x hx
  · exact fun c hc => h.sentinel c (by rwa [hctx c] at hc)
  · intro u b c hu
    rw [hctx c]
    exact h.reporting u b c (hback u b c hu)
  · exact fun u v b b' c hu hv => h.reporter u v b b' c (hback u b c hu) (hback v b' c hv)

theorem HeadsOk.initStep (h : s.HeadsOk r) (hi : s.Inv) {i : ListId} {op : InitOp}
    {ops : List InitOp} (ht : s.pc t = .creating a i (op :: ops)) (o : UmsComplist)
    (ho : s.obj a = some o) :
    ∃ r', ((s.initStep a i o op).setPc t (.creating a i ops)).HeadsOk r' := by
  have hk := hi.knows t
  rw [ht] at hk
  have hnot := (List.nodup_cons.mp hk.2.2.2.2.1).1
  have hb := h.building t a i _ ht
  rw [initStep_eq i o op ho]
  by_cases hop : op = .initListHead
  · subst hop
    have hnone := hb.mpr List.mem_cons_self
    refine ⟨_, h.build hi ht _ _ _
      (h.rings.initListHead (.head a) rfl (h.head_not_mem hnone)) ?_ ?_ ?_⟩
    · exact fun n hn => Function.update_of_ne hn _ _
    · simp [hnot]
    · intro l hl x hx
      rw [Function.update_self, Option.some.injEq] at hl
      rw [← hl] at hx
      cases hx
  · have hheap : InitOp.heap s.heap a op = s.heap := by
      cases op <;> first | rfl | exact absurd rfl hop
    rw [hheap]
    refine ⟨r, h.build hi ht _ _ r h.rings (fun _ _ => rfl) ?_ ?_⟩
    · rw [hb, List.mem_cons, or_iff_right (fun he => hop he.symm)]
    · exact h.member _

theorem HeadsOk.created (h : s.HeadsOk r) {i : ListId} (ht : s.pc t = .creating a i []) :
    ({ s.setPc t .user with ready := Function.update s.ready a true } : Registry).HeadsOk r := by
  have hb := h.building t a i [] ht
  refine h.frame rfl rfl (Int.le_refl _) ?_ ?_
  · intro b hr
    by_cases hba : b = a
    · subst hba
      exact Or.inr (by simp [hb])
    · simp only [Function.update_of_ne hba] at hr
      exact Or.inl hr
  · intro u
    by_cases hu : u = t
    · exact Or.inr (by simp [hu, Registry.setPc, RegPc.plain])
    · exact Or.inl (by simp [hu, Registry.setPc])

/-- An operation of thread `t` on the rings. -/
theorem HeadsOk.rewire (h : s.HeadsOk r) (p : RegPc) (r' : Node → Option (List Node))
    (hpc : s'.pc = Function.update s.pc t p) (hready : s'.ready = s.ready)
    (hnext : s'.nextAddr = s.nextAddr)
    (hrings : RingFamily s'.heap r' (fun _ => none))
    (hheads : ∀ b, r' (.head b) = none ↔ r (.head b) = none)
    (hmember : ∀ n l, r' n = some l → ∀ x ∈ l, ∃ c, x = .context c ∧ c < s'.nextContext)
    (hsentinel : ∀ c, r' (.context c) ≠ none → c < s'.nextContext)
    (hkeep : ∀ u b c, u ≠ t → s.pc u = .reporting b c → r' (.context c) ≠ none)
    (hp : p.plain = true ∨ ∃ b c, p = .reporting b c ∧ r' (.context c) ≠ none ∧
      ∀ u b', u ≠ t → s.pc u ≠ .reporting b' c) : s'.HeadsOk r' := by
  have hother (u : Pid) (hu : u ≠ t) : s'.pc u = s.pc u := by
    rw [hpc, Function.update_of_ne hu]
  have hself : s'.pc t = p := by
    rw [hpc, Function.update_self]
  -- a report of `t` is new, and of a context nobody else reports
  have hown (b : Addr) (c : Pid) (ht : s'.pc t = .reporting b c) :
      r' (.context c) ≠ none ∧ ∀ u b', u ≠ t → s'.pc u ≠ .reporting b' c := by
    rw [hself] at ht
    subst ht
    rcases hp with hp | ⟨b₁, c₁, he, hc, hu⟩
    · cases hp
    · rw [RegPc.reporting.injEq] at he
      obtain ⟨-, rfl⟩ := he
      exact ⟨hc, fun u b' hut => by rw [hother u hut]; exact hu u b' hut⟩
  refine ⟨hrings, ?_, ?_, ?_, hmember, hsentinel, ?_, ?_⟩
  · intro b hb
    rw [hready] at hb
    exact fun hn => h.ready b hb ((hheads b).mp hn)
  · intro u b i ops hu
    have hut : u ≠ t := by
      rintro rfl
      rw [hself] at hu
      subst hu
      rcases hp with hp | ⟨b₁, c₁, he, -⟩
      · cases hp
      · cases he
    rw [hother u hut] at hu
    rw [hheads b]
    exact h.building u b i ops hu
  · intro b hb
    rw [hnext] at hb
    exact (hheads b).mpr (h.fresh b hb)
  · intro u b c hu
    by_cases hut : u = t
    · rw [hut] at hu
      exact (hown b c hu).1
    · exact hkeep u b c hut (hother u hut ▸ hu)
  · intro u v b b' c hu hv
    by_cases hut : u = t
    · by_cases hvt : v = t
      · rw [hut, hvt]
      · rw [hut] at hu
        exact absurd hv ((hown b c hu).2 v b' hvt)
    · by_cases hvt : v = t
      · rw [hvt] at hv
        exact absurd hu ((hown b' c hv).2 u b hut)
      · exact h.reporter u v b b' c (hother u hut ▸ hu) (hother v hvt ▸ hv)

/-- The node of a new context is in no ring. -/
theorem HeadsOk.fresh_context (h : s.HeadsOk r) :
    r (.context s.nextContext) = none ∧ Loose r (.context s.nextContext) := by
  have hnone : r (.context s.nextContext) = none := by
    by_contra hne
    exact Int.lt_irrefl _ (h.sentinel _ hne)
  refine ⟨hnone, ?_⟩
  intro n m hn hm
  rcases List.mem_cons.mp hm with he | hm
  · rw [← he, hnone] at hn
    cases hn
  · obtain ⟨c, hc, hlt⟩ := h.member n m hn _ hm
    rw [Node.context.injEq] at hc
    exact absurd hlt (hc ▸ Int.lt_irrefl _)

/-- A new context is inserted. -/
theorem HeadsOk.insert (h : s.HeadsOk r) (ha : s.ready a = true) (h' : Heap Node)
    (hadd : umsCompletionListAdd s.heap a s.nextContext complistAddTail = some h') :
    ∃ r', ({ (s.done t a).setPc t .suspended with
      heap := h', nextContext := s.nextContext + 1 } : Registry).HeadsOk r' := by
  obtain ⟨l, hl⟩ := Option.ne_none_iff_exists'.mp (h.ready a ha)
  obtain ⟨hnone, hloose⟩ := h.fresh_context
  obtain ⟨h₁, hh, hf, -⟩ := h.rings.listAddTail (.head a) (.context s.nextContext) l hl rfl hloose
    (by simp)
  obtain rfl : h₁ = h' := Option.some.inj (hh.symm.trans hadd)
  rw [← hnone, Function.update_eq_self] at hf
  refine ⟨_, h.rewire (t := t) .suspended _ rfl rfl rfl hf ?_ ?_ ?_ ?_ (Or.inl rfl)⟩
  · intro b
    by_cases hb : b = a
    · simp [hb, hl]
    · rw [Function.update_of_ne (by simp [hb])]
  · intro n m hn x hx
    have hlt : s.nextContext < s.nextContext + 1 := Int.lt_succ _
    rcases update_some_cases hn with ⟨rfl, rfl⟩ | ⟨hna, hn⟩
    · rcases List.mem_append.mp hx with hx | hx
      · obtain ⟨c, rfl, hc⟩ := h.member _ l hl x hx
        exact ⟨c, rfl, Int.lt_trans hc hlt⟩
      · exact ⟨_, List.mem_singleton.mp hx, hlt⟩
    · obtain ⟨c, rfl, hc⟩ := h.member n m hn x hx
      exact ⟨c, rfl, Int.lt_trans hc hlt⟩
  · intro c hc
    rw [Function.update_of_ne (by simp)] at hc
    exact Int.lt_trans (h.sentinel c hc) (Int.lt_succ _)
  · intro u b c _ hu
    rw [Function.update_of_ne (by simp)]
    exact h.reporting u b c hu

/-- The first context of a list is taken, with the others behind it. -/
theorem HeadsOk.takeBatch (h : s.HeadsOk r) (ha : s.ready a = true) (c : Pid) (h' : Heap Node)
    (hne : listEmpty s.heap (.head a) = false)
    (htake : doDequeueUmsComplistContext s.heap a = some (.context c, h')) :
    ∃ r', ({ s.setPc t (.reporting a c) with heap := h' } : Registry).HeadsOk r' := by
  obtain ⟨l, hl⟩ := Option.ne_none_iff_exists'.mp (h.ready a ha)
  have hring := h.rings.ring (.head a) l hl rfl
  obtain ⟨x, m, rfl⟩ : ∃ x m, l = x :: m := by
    apply List.exists_cons_of_ne_nil
    intro he
    rw [(listEmpty_ring _ _ l hring).mpr he] at hne
    cases hne
  obtain ⟨h₁, hh, hf, -⟩ := h.rings.takeFirst (.head a) x m hl rfl
  have hpair := Option.some.inj (hh.symm.trans htake)
  rw [Prod.mk.injEq] at hpair
  obtain ⟨rfl, rfl⟩ := hpair
  have hold := h.member _ _ hl
  -- `c` was a member, so it was nobody's sentinel
  have hnone : r (.context c) = none :=
    h.rings.member_not_sentinel (.head a) (.context c) _ hl List.mem_cons_self
  refine ⟨_, h.rewire (t := t) (.reporting a c) _ rfl rfl rfl hf ?_ ?_ ?_ ?_ ?_⟩
  · intro b
    rw [Function.update_of_ne (by simp)]
    by_cases hb : b = a
    · simp [hb, hl]
    · rw [Function.update_of_ne (by simp [hb])]
  · intro n k hn y hy
    rcases update_some_some_cases hn with ⟨-, rfl⟩ | ⟨-, rfl⟩ | ⟨-, -, hrn⟩
    · exact hold y (List.mem_cons_of_mem _ hy)
    · cases hy
    · exact h.member n k hrn y hy
  · intro d hd
    by_cases hdc : d = c
    · subst hdc
      obtain ⟨e, he, hlt⟩ := hold _ List.mem_cons_self
      rw [Node.context.injEq] at he
      exact he ▸ hlt
    · rw [Function.update_of_ne (by simp [hdc]), Function.update_of_ne (by simp)] at hd
      exact h.sentinel d hd
  · intro u b d _ hu
    have hd := h.reporting u b d hu
    by_cases hdc : d = c
    · simp [hdc]
    · rwa [Function.update_of_ne (by simp [hdc]), Function.update_of_ne (by simp)]
  · refine Or.inr ⟨a, c, rfl, by simp, fun u b _ hu => h.reporting u b c hu hnone⟩

/-- The error path of a dequeue: the first context goes back, the others stay behind. -/
theorem HeadsOk.putBack (h : s.HeadsOk r) (ha : s.ready a = true) (c : Pid) (h' : Heap Node)
    (ht : s.pc t = .reporting a c)
    (hadd : umsCompletionListAdd s.heap a c complistAddHead = some h') :
    ∃ r', ({ s.leave t a with heap := h' } : Registry).HeadsOk r' := by
  obtain ⟨l, hl⟩ := Option.ne_none_iff_exists'.mp (h.ready a ha)
  have hc := h.reporting t a c ht
  obtain ⟨k, hk⟩ := Option.ne_none_iff_exists'.mp hc
  -- the ring of the batch is given up, so that its sentinel can be inserted
  have hforget := h.rings.forget (.context c) rfl
  have hl' : Function.update r (.context c) none (.head a) = some l := by
    rw [Function.update_of_ne (by simp)]
    exact hl
  obtain ⟨h₁, hh, hf, -⟩ := hforget.listAdd (.head a) (.context c) l hl' rfl
    (h.rings.loose_forget _ k hk) (by simp)
  obtain rfl : h₁ = h' := Option.some.inj (hh.symm.trans hadd)
  rw [Function.update_idem] at hf
  refine ⟨_, h.rewire (t := t) .user _ rfl rfl rfl hf ?_ ?_ ?_ ?_ (Or.inl rfl)⟩
  · intro b
    by_cases hb : b = a
    · simp [hb, hl]
    · rw [Function.update_of_ne (by simp [hb]), Function.update_of_ne (by simp)]
  · intro n m hn x hx
    rcases update_some_cases hn with ⟨rfl, rfl⟩ | ⟨-, hn⟩
    · rcases List.mem_cons.mp hx with he | hx
      · exact ⟨c, he, h.sentinel c hc⟩
      · exact h.member _ l hl x hx
    · exact h.member n m (of_update_none hn).2 x hx
  · intro d hd
    rw [Function.update_of_ne (by simp)] at hd
    by_cases hdc : d = c
    · exact hdc ▸ h.sentinel c hc
    · rw [Function.update_of_ne (by simp [hdc])] at hd
      exact h.sentinel d hd
  · intro u b d hut hu
    have hdc : d ≠ c := by
      rintro rfl
      exact hut (h.reporter u t b a d hu ht)
    rw [Function.update_of_ne (by simp), Function.update_of_ne (by simp [hdc])]
    exact h.reporting u b d hu

/-- The list operations on a ready list do not fault. -/
theorem HeadsOk.add_succeeds (h : s.HeadsOk r) (ha : s.ready a = true) :
    ∃ h', umsCompletionListAdd s.heap a s.nextContext complistAddTail = some h' := by
  obtain ⟨l, hl⟩ := Option.ne_none_iff_exists'.mp (h.ready a ha)
  obtain ⟨h', hh, -⟩ := h.rings.listAddTail (.head a) (.context s.nextContext) l hl rfl
    h.fresh_context.2 (by simp)
  exact ⟨h', hh⟩

theorem HeadsOk.dequeue_succeeds (h : s.HeadsOk r) (ha : s.ready a = true)
    (hne : listEmpty s.heap (.head a) = false) :
    ∃ c h', doDequeueUmsComplistContext s.heap a = some (.context c, h') := by
  obtain ⟨l, hl⟩ := Option.ne_none_iff_exists'.mp (h.ready a ha)
  have hring := h.rings.ring (.head a) l hl rfl
  cases l with
  | nil =>
    rw [(listEmpty_ring _ _ [] hring).mpr rfl] at hne
    cases hne
  | cons x m =>
    obtain ⟨c, rfl, -⟩ := h.member _ _ hl x List.mem_cons_self
    obtain ⟨h', hh, -⟩ := h.rings.takeFirst (.head a) (.context c) m hl rfl
    exact ⟨c, h', hh⟩

theorem HeadsOk.putBack_succeeds (h : s.HeadsOk r) (ha : s.ready a = true) {c : Pid}
    (hc : r (.context c) ≠ none) :
    ∃ h', umsCompletionListAdd s.heap a c complistAddHead = some h' := by
  obtain ⟨l, hl⟩ := Option.ne_none_iff_exists'.mp (h.ready a ha)
  have hout : .context c ∉ Node.head a :: l := by
    intro hm
    rcases List.mem_cons.mp hm with he | hm
    · cases he
    · exact hc (h.rings.member_not_sentinel _ _ l hl hm)
  obtain ⟨h', hh, -⟩ := ring_listAdd s.heap (.head a) (.context c) l
    (h.rings.ring _ l hl rfl) hout
  exact ⟨h', hh⟩

theorem HeadsOk.crash (h : s.HeadsOk r) (t : Pid) : (s.crash t).HeadsOk r :=
  h.moved (t := t) .oops rfl rfl rfl rfl rfl rfl

theorem HeadsOk.leave (h : s.HeadsOk r) (t : Pid) (a : Addr) : (s.leave t a).HeadsOk r :=
  h.moved (t := t) .user rfl rfl rfl rfl rfl rfl

/-- The members of the objects and the deletes so far do not enter. -/
theorem HeadsOk.mask (h : s.HeadsOk r) (O : Addr → Option UmsComplist) (d : Addr → ℕ) :
    ({ s with obj := O, deletes := d } : Registry).HeadsOk r :=
  h.frame rfl rfl (Int.le_refl _) (fun _ hb => Or.inl hb) (fun _ => Or.inl rfl)

theorem HeadsOk.putReturns (h : s.HeadsOk r) (k : Option Role) :
    (s.putReturns t a k).HeadsOk r := by
  cases k with
  | none => exact h.leave t a
  | some k => exact h.moved (t := t) (.dropping k a) rfl rfl rfl rfl rfl rfl

theorem HeadsOk.putUmsComplist (h : s.HeadsOk r) (o : UmsComplist) (k : Option Role) :
    (s.putUmsComplist t a o k).HeadsOk r := by
  rw [Registry.putUmsComplist]
  split
  · exact h.moved (t := t) (.removing k a) rfl rfl rfl rfl rfl rfl
  · exact (h.mask _ s.deletes).putReturns k

theorem HeadsOk.step (h : s.HeadsOk r) (hi : s.Inv) (act : RegAct) (hs : s.step act = some s') :
    ∃ r', s'.HeadsOk r' := by
  cases step_steps hs with
  | publish t i ht => exact ⟨r, h.publish i⟩
  | deleteNone | dequeueNone | endNone => exact ⟨r, h⟩
  | endUnassigned t | runBreaks t | copyBreaks t => exact ⟨r, h.crash t⟩
  | enterNone t => exact ⟨r, h.moved (t := t) .oops rfl rfl rfl rfl rfl rfl⟩
  | enter t k i a ht => exact ⟨r, h.moved (t := t) (.attaching k a) rfl rfl rfl rfl rfl rfl⟩
  | delete t i a ht => exact ⟨r, h.moved (t := t) (.deleting a) rfl rfl rfl rfl rfl rfl⟩
  | dequeue t i a ht => exact ⟨r, h.moved (t := t) (.dequeuing a) rfl rfl rfl rfl rfl rfl⟩
  | endWorker t a ht => exact ⟨r, h.moved (t := t) (.ending .worker a) rfl rfl rfl rfl rfl rfl⟩
  | initStep t a i op ops o ht ho => exact h.initStep hi ht o ho
  | created t a i ht => exact ⟨r, h.created ht⟩
  | get t k a o ht => exact ⟨r, h.moved (t := t) (.storing k a) rfl rfl rfl rfl rfl rfl⟩
  | storeWorker t a ht => exact ⟨r, h.moved (t := t) (.inserting a) rfl rfl rfl rfl rfl rfl⟩
  | storeScheduler t a ht => exact ⟨r, h.moved (t := t) (.startup a) rfl rfl rfl rfl rfl rfl⟩
  | insert t a h' ht hadd =>
    have hk := hi.knows t
    rw [ht] at hk
    exact h.insert hk.1 h' hadd
  | putDeleted t a o ht ho => exact ⟨r, (h.mask s.obj _).putUmsComplist o none⟩
  | take t a c h' ht hne htake =>
    have hk := hi.knows t
    rw [ht] at hk
    exact h.takeBatch hk.1 c h' hne htake
  | report t a c ht | interrupt t a ht => exact ⟨r, h.leave t a⟩
  | putEnded t k a o ht ho => exact ⟨r, h.putUmsComplist o (some k)⟩
  | remove t k a o ht ho => exact ⟨r, h.moved (t := t) (.retiring k a) rfl rfl rfl rfl rfl rfl⟩
  | retire t k a ht =>
    exact ⟨r, (h.putReturns k).frame rfl rfl (Int.le_refl _) (fun _ hb => Or.inl hb)
      (fun _ => Or.inl rfl)⟩
  | started t | drop t | discard t | resume t =>
    exact ⟨r, h.moved (t := t) .user rfl rfl rfl rfl rfl rfl⟩
  | noEvent t a ht => exact ⟨r, h.moved (t := t) (.ending .scheduler a) rfl rfl rfl rfl rfl rfl⟩
  | putBack t a c h' ht hadd =>
    have hk := hi.knows t
    rw [ht] at hk
    exact h.putBack hk.1 c h' ht hadd
  | free a hret => exact ⟨r, h.mask _ s.deletes⟩

theorem headsOk_init : Registry.init.HeadsOk (fun _ => none) := by
  refine ⟨⟨?_, ?_, ?_, ?_⟩, ?_, ?_, ?_, ?_, ?_, ?_, ?_⟩ <;> simp [Registry.init]

/-- Every list that somebody has looked up has a well-formed head and a reference when it is
used, and a list under construction has lent no reference that `kref_init` could overwrite. -/
structure FoundReady (s : Registry) : Prop where
  head : ∀ t a, (s.pc t).uses = some a → ∃ ms : List Pid, Ring s.heap (.head a) (ms.map .context)
  refcount : ∀ t a, (s.pc t).uses = some a → ∃ o, s.obj a = some o ∧ 1 ≤ o.refcount
  creating : ∀ t a i ops, s.pc t = .creating a i ops →
    ∀ k u, s.complist (k, u) ≠ some a ∧ s.pc u ≠ .storing k a

end Registry

/-- In an orderly run every list that is found is initialised. -/
theorem found_lists_initialised (s : Registry)
    (hr : Transition.Reach Registry.step Orderly Registry.init s) : s.FoundReady := by
  have hi := orderly_inv s hr
  have hboth : s.Inv ∧ ∃ r, s.HeadsOk r := by
    refine hr.invariant (fun s => s.Inv ∧ ∃ r, s.HeadsOk r)
      ⟨registry_inv_init, _, Registry.headsOk_init⟩ ?_
    intro s act s' ⟨hi, r, h⟩ hok hs
    exact ⟨hi.step act hok.1 hok.2 hs, h.step hi act hs⟩
  obtain ⟨-, r, h⟩ := hboth
  constructor
  · intro t a hu
    have hs := (hi.knows t).settled hu
    obtain ⟨l, hl⟩ := Option.ne_none_iff_exists'.mp (h.ready a hs.1)
    obtain ⟨ms, rfl⟩ := h.contexts _ l hl
    exact ⟨ms, h.rings.ring _ _ hl rfl⟩
  · intro t a hu
    have hs := (hi.knows t).settled hu
    exact (hi.list a).live hs.1 hs.2
  · intro t a i ops ht k u
    have hr := (hi.alone ht).1
    constructor
    · exact fun hu => Bool.false_ne_true (hr.symm.trans ((hi.list a).member k u hu))
    · intro hu
      have hs := (hi.knows u).settled (a := a) (by rw [hu]; rfl)
      exact Bool.false_ne_true (hr.symm.trans hs.1)

/-- Scheduler 3 is about to dequeue from the list that worker 2 is queued in, while thread 1
initialises another one. -/
theorem found_lists_initialised_sample :
    ∃ s, Transition.Reach Registry.step Orderly Registry.init s ∧
      ((s.pc 3 = .dequeuing 0 ∧ listEmpty s.heap (.head 0) = false) ∧
        s.pc 1 = .creating 1 2 [.initWaitqueueHead, .krefInit]) ∧ s.FoundReady := by
  obtain ⟨s, hr, hs⟩ := Transition.Reach.exists_of_run Registry.step Orderly Registry.init
    (createList ++ enterWorker 2 ++ enterScheduler 3 ++
      [.dequeue 3 1, .create 1 2, .run 1, .run 1, .run 1, .run 1])
    (fun s => (s.pc 3 = .dequeuing 0 ∧ listEmpty s.heap (.head 0) = false) ∧
      s.pc 1 = .creating 1 2 [.initWaitqueueHead, .krefInit]) (by decide +kernel)
  exact ⟨s, hr, hs, found_lists_initialised s hr⟩

/-- Ids can be named before the creator has returned. A dequeue that comes right after
`IDR_L_ALLOC` reads a zeroed head as non-empty and faults; an enter takes a reference that
`kref_init` overwrites, and the first delete then releases the list under a live worker. -/
theorem found_before_initialised :
    (∃ s, Transition.Reach Registry.step QuietLastPut Registry.init s ∧
      s.pc 3 = .dequeuing 1 ∧ s.obj 1 = some ⟨0, 0⟩ ∧ (s.heap (.head 1)).next = .null ∧
        listEmpty s.heap (.head 1) = false ∧ (s.advance 3).map Registry.fault = some true) ∧
    (∃ s, Transition.Reach Registry.step QuietLastPut Registry.init s ∧
      s.pc 1 = .creating 0 1 [.krefInit] ∧ s.complist (.worker, 2) = some 0 ∧
        s.obj 0 = some ⟨1, 1⟩) ∧
    ∃ s, Transition.Reach Registry.step QuietLastPut Registry.init s ∧
      (2 ∈ s.table .worker ∧ s.complist (.worker, 2) = some 0 ∧ s.pc 2 = .suspended) ∧
        s.deletes 0 = 1 ∧ s.releases 0 = 1 := by
  refine ⟨?_, ?_, ?_⟩
  · exact Transition.Reach.exists_of_run Registry.step QuietLastPut Registry.init
      (createList ++ enterScheduler 3 ++ [.create 1 2, .dequeue 3 2])
      _ (by decide +kernel)
  · exact Transition.Reach.exists_of_run Registry.step QuietLastPut Registry.init
      [.create 1 1, .run 1, .run 1, .run 1, .run 1, .run 1, .enter 2 .worker 1, .run 2, .run 2]
      _ (by decide +kernel)
  · exact Transition.Reach.exists_of_run Registry.step QuietLastPut Registry.init
      ([.create 1 1, .run 1, .run 1, .run 1, .run 1, .run 1] ++ enterWorker 2 ++
        [.run 1, .run 1, .delete 1 1, .run 1])
      _ (by decide +kernel)

end LinuxUms
