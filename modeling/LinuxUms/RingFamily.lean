import LinuxUms.KernelList

/-! Many rings in one heap. Each ring is named by its sentinel, no node belongs to two of
them, and a ring whose first member has been unlinked while its successor role is not yet
handed over is recorded as such. Every operation on one ring keeps all the others. -/
namespace KernelList

variable {α : Type*} [DecidableEq α]

/-- `r a` is the content of the ring with sentinel `a`; `p a = some x` says that `x`, its
first member, is already off the ring and about to take over the sentinel role. -/
structure RingFamily (h : Heap α) (r : α → Option (List α)) (p : α → Option α) : Prop where
  ring : ∀ a l, r a = some l → p a = none → Ring h a l
  taking : ∀ a x, p a = some x → ∃ l, r a = some (x :: l) ∧ Ring h a l
  nodup : ∀ a l, r a = some l → (a :: l).Nodup
  disjoint : ∀ a b l m x, r a = some l → r b = some m → x ∈ a :: l → x ∈ b :: m → a = b

omit [DecidableEq α] in
/-- No rings yet. -/
theorem ringFamily_none (h : Heap α) : RingFamily h (fun _ => none) (fun _ => none) :=
  ⟨nofun, nofun, nofun, nofun⟩

/-- A node that no ring links: outside every ring, or the sentinel of its own empty one. -/
def Loose (r : α → Option (List α)) (x : α) : Prop :=
  ∀ a l, r a = some l → x ∈ a :: l → a = x ∧ l = []

/-- Unlink the first entry behind `a` and make it the sentinel of what is left. -/
def takeFirst (h : Heap α) (a : α) : Option (α × Heap α) :=
  match (h a).next with
  | .node x => do
    let h ← listDel h x
    let h ← listReplaceInit h a x
    return (x, h)
  | _ => none

section PartialMap

variable {β : Type*} {f : α → Option β} {a b c : α} {k l m : β}

/-- Where a value of an updated partial map comes from. -/
theorem update_some_cases (hb : Function.update f a (some k) b = some m) :
    (b = a ∧ m = k) ∨ (b ≠ a ∧ f b = some m) := by
  by_cases hba : b = a
  · subst hba
    rw [Function.update_self, Option.some.injEq] at hb
    exact Or.inl ⟨rfl, hb.symm⟩
  · rw [Function.update_of_ne hba] at hb
    exact Or.inr ⟨hba, hb⟩

theorem of_update_none (hb : Function.update f a none b = some m) : b ≠ a ∧ f b = some m := by
  by_cases hba : b = a
  · subst hba
    rw [Function.update_self] at hb
    cases hb
  · rw [Function.update_of_ne hba] at hb
    exact ⟨hba, hb⟩

theorem update_none_iff {β γ : Type*} [DecidableEq β] (f : β → Option γ) (a : β) (x y : γ)
    (ha : f a = some x) (b : β) : Function.update f a (some y) b = none ↔ f b = none := by
  by_cases hb : b = a
  · simp [hb, ha]
  · rw [Function.update_of_ne hb]

/-- The map that drops `c` and sets `a`. -/
theorem update_none_some_cases
    (hb : Function.update (Function.update f c none) a (some k) b = some m) :
    (b = a ∧ m = k) ∨ (b ≠ a ∧ b ≠ c ∧ f b = some m) :=
  (update_some_cases hb).imp_right fun ⟨hba, hf⟩ => ⟨hba, of_update_none hf⟩

/-- The map that sets `c`, then `a`. -/
theorem update_some_some_cases
    (hb : Function.update (Function.update f c (some l)) a (some k) b = some m) :
    (b = a ∧ m = k) ∨ (b = c ∧ m = l) ∨ (b ≠ a ∧ b ≠ c ∧ f b = some m) := by
  rcases update_some_cases hb with h | ⟨hba, hf⟩
  · exact Or.inl h
  · rcases update_some_cases hf with h | ⟨hbc, hf⟩
    · exact Or.inr (Or.inl h)
    · exact Or.inr (Or.inr ⟨hba, hbc, hf⟩)

end PartialMap

section Family

variable {h : Heap α} {r : α → Option (List α)} {p : α → Option α}

omit [DecidableEq α] in
/-- A member of a ring is no sentinel. -/
theorem RingFamily.member_not_sentinel (hf : RingFamily h r p) (a x : α) (l : List α)
    (ha : r a = some l) (hx : x ∈ l) : r x = none := by
  cases hr : r x with
  | none => rfl
  | some m =>
    have he := hf.disjoint a x l m x ha hr (List.mem_cons_of_mem a hx) List.mem_cons_self
    subst he
    exact absurd hx (List.nodup_cons.mp (hf.nodup a l ha)).1

omit [DecidableEq α] in
theorem RingFamily.pending_none (hf : RingFamily h r p) (a : α) (ha : r a = none) : p a = none := by
  cases hp : p a with
  | none => rfl
  | some x =>
    obtain ⟨l, hl, _⟩ := hf.taking a x hp
    rw [ha] at hl
    cases hl

omit [DecidableEq α] in
/-- The other rings survive a change that stays inside the component of one sentinel. -/
theorem RingFamily.other_ring (hf : RingFamily h r p) (h' : Heap α) (a b : α) (l m : List α)
    (ha : r a = some l) (hb : r b = some m) (hne : b ≠ a)
    (hfr : ∀ x, x ∉ a :: l → h' x = h x) (k : List α) (hk : k ⊆ m) (hr : Ring h b k) :
    Ring h' b k := by
  refine ring_congr h h' b k (fun x hx => hfr x ?_) hr
  intro hxa
  have hxm : x ∈ b :: m := by
    rcases List.mem_cons.mp hx with he | hm
    · exact he ▸ List.mem_cons_self
    · exact List.mem_cons_of_mem b (hk hm)
  exact hne (hf.disjoint a b l m x ha hb hxa hxm).symm

omit [DecidableEq α] in
/-- Rings may be forgotten, and nodes outside all rings may change. -/
theorem RingFamily.restrict (hf : RingFamily h r p) (h' : Heap α) (r' : α → Option (List α))
    (hr : ∀ a l, r' a = some l → r a = some l) (hp : ∀ a x, p a = some x → r' a = r a)
    (hh : ∀ a l x, r' a = some l → x ∈ a :: l → h' x = h x) : RingFamily h' r' p where
  ring a l ha hpa := ring_congr h h' a l (fun x hx => hh a l x ha hx) (hf.ring a l (hr a l ha) hpa)
  taking a x hpa := by
    obtain ⟨l, hl, hrl⟩ := hf.taking a x hpa
    have hl' : r' a = some (x :: l) := by rw [hp a x hpa, hl]
    refine ⟨l, hl', ring_congr h h' a l (fun y hy => hh a _ y hl' ?_) hrl⟩
    rcases List.mem_cons.mp hy with he | hm
    · exact he ▸ List.mem_cons_self
    · exact List.mem_cons_of_mem a (List.mem_cons_of_mem x hm)
  nodup a l ha := hf.nodup a l (hr a l ha)
  disjoint a b l m x ha hb := hf.disjoint a b l m x (hr a l ha) (hr b m hb)

/-- A node that belongs to no ring becomes the sentinel of an empty one. -/
theorem RingFamily.initListHead (hf : RingFamily h r p) (a : α) (hp : p a = none)
    (ha : ∀ b l, r b = some l → a ∉ b :: l) :
    RingFamily (initListHead h a) (Function.update r a (some [])) p := by
  have hfr (x : α) (hx : x ≠ a) : KernelList.initListHead h a x = h x := by
    simp [KernelList.initListHead, hx]
  have hother (b : α) (m k : List α) (hb : r b = some m) (hk : k ⊆ m) (hr : Ring h b k) :
      Ring (KernelList.initListHead h a) b k := by
    refine ring_congr h _ b k (fun x hx => hfr x ?_) hr
    rintro rfl
    refine ha b m hb ?_
    rcases List.mem_cons.mp hx with he | hm
    · exact he ▸ List.mem_cons_self
    · exact List.mem_cons_of_mem b (hk hm)
  refine ⟨?_, ?_, ?_, ?_⟩
  · intro b m hb hpb
    rcases update_some_cases hb with ⟨rfl, rfl⟩ | ⟨hba, hrb⟩
    · exact (ring_nil_iff _ b).mpr (by simp [SelfLinked, KernelList.initListHead])
    · exact hother b m m hrb (List.Subset.refl m) (hf.ring b m hrb hpb)
  · intro b x hpb
    have hba : b ≠ a := by
      rintro rfl
      rw [hp] at hpb
      cases hpb
    obtain ⟨m, hm, hrm⟩ := hf.taking b x hpb
    exact ⟨m, by rw [Function.update_of_ne hba]; exact hm,
      hother b _ m hm (List.subset_cons_self x m) hrm⟩
  · intro b m hb
    rcases update_some_cases hb with ⟨rfl, rfl⟩ | ⟨-, hrb⟩
    · simp
    · exact hf.nodup b m hrb
  · intro b c m k x hb hc hxb hxc
    rcases update_some_cases hb with ⟨rfl, rfl⟩ | ⟨-, hrb⟩ <;>
      rcases update_some_cases hc with ⟨rfl, rfl⟩ | ⟨-, hrc⟩
    · rfl
    · exact absurd (List.mem_singleton.mp hxb ▸ hxc) (ha c k hrc)
    · exact absurd (List.mem_singleton.mp hxc ▸ hxb) (ha b m hrb)
    · exact hf.disjoint b c m k x hrb hrc hxb hxc

/-- One ring is forgotten. -/
theorem RingFamily.forget (hf : RingFamily h r p) (a : α) (hp : p a = none) :
    RingFamily h (Function.update r a none) p := by
  refine hf.restrict h _ (fun _ _ hb => (of_update_none hb).2) (fun b x hb => ?_)
    (fun _ _ _ _ _ => rfl)
  refine Function.update_of_ne ?_ _ _
  rintro rfl
  rw [hp] at hb
  cases hb

/-- A sentinel whose ring is forgotten is loose. -/
theorem RingFamily.loose_forget (hf : RingFamily h r p) (a : α) (l : List α) (ha : r a = some l) :
    Loose (Function.update r a none) a := by
  intro b m hb hm
  obtain ⟨hba, hrb⟩ := of_update_none hb
  exact absurd (hf.disjoint b a m l a hrb ha hm List.mem_cons_self) hba

/-- Unlinking the first member of one ring. -/
theorem RingFamily.listDel (hf : RingFamily h r p) (a x : α) (l : List α)
    (ha : r a = some (x :: l)) (hp : p a = none) :
    ∃ h', listDel h x = some h' ∧ RingFamily h' r (Function.update p a (some x)) ∧
      ∀ y, y ∉ a :: x :: l → h' y = h y := by
  obtain ⟨h', hh, hr, -, hfr⟩ := ring_listDel h a x l (hf.ring a _ ha hp)
  have hfr' : ∀ y, y ∉ a :: x :: l → h' y = h y := by
    intro y hy
    simp only [List.mem_cons, not_or] at hy
    exact hfr y hy.2.1 (by simp only [List.mem_cons, not_or]; exact ⟨hy.1, hy.2.2⟩)
  refine ⟨h', hh, ⟨?_, ?_, hf.nodup, hf.disjoint⟩, hfr'⟩
  · intro b m hb hpb
    have hne : b ≠ a := by
      rintro rfl
      simp at hpb
    rw [Function.update_of_ne hne] at hpb
    exact hf.other_ring h' a b _ m ha hb hne hfr' m (List.Subset.refl m) (hf.ring b m hb hpb)
  · intro b y hpb
    by_cases hne : b = a
    · subst hne
      rw [Function.update_self, Option.some.injEq] at hpb
      subst hpb
      exact ⟨l, ha, hr⟩
    · rw [Function.update_of_ne hne] at hpb
      obtain ⟨m, hm, hrm⟩ := hf.taking b y hpb
      exact ⟨m, hm, hf.other_ring h' a b _ _ ha hm hne hfr' m (List.subset_cons_self y m) hrm⟩

/-- The first member is unlinked for good. -/
theorem RingFamily.dropFirst (hf : RingFamily h r p) (a x : α) (l : List α)
    (ha : r a = some (x :: l)) (hp : p a = none) :
    ∃ h', KernelList.listDel h x = some h' ∧ RingFamily h' (Function.update r a (some l)) p := by
  obtain ⟨h', hh, hf', -⟩ := hf.listDel a x l ha hp
  have hsub : ∀ y ∈ a :: l, y ∈ a :: x :: l := by
    intro y hy
    rcases List.mem_cons.mp hy with he | hm
    · exact he ▸ List.mem_cons_self
    · exact List.mem_cons_of_mem a (List.mem_cons_of_mem x hm)
  have hpend (b : α) (hb : b ≠ a) : Function.update p a (some x) b = p b :=
    Function.update_of_ne hb _ _
  refine ⟨h', hh, ?_, ?_, ?_, ?_⟩
  · intro b m hb hpb
    rcases update_some_cases hb with ⟨rfl, rfl⟩ | ⟨hba, hrb⟩
    · obtain ⟨l', hl', hr⟩ := hf'.taking b x (Function.update_self b _ p)
      rw [ha, Option.some.injEq, List.cons.injEq] at hl'
      exact hl'.2 ▸ hr
    · exact hf'.ring b m hrb ((hpend b hba).trans hpb)
  · intro b y hpb
    have hba : b ≠ a := by
      rintro rfl
      rw [hp] at hpb
      cases hpb
    rw [Function.update_of_ne hba]
    exact hf'.taking b y ((hpend b hba).trans hpb)
  · intro b m hb
    rcases update_some_cases hb with ⟨rfl, rfl⟩ | ⟨-, hrb⟩
    · have hnd := hf.nodup b _ ha
      exact hnd.sublist (List.Sublist.cons_cons b (List.sublist_cons_self x m))
    · exact hf.nodup b m hrb
  · intro b c m k y hb hc hyb hyc
    rcases update_some_cases hb with ⟨rfl, rfl⟩ | ⟨-, hrb⟩ <;>
      rcases update_some_cases hc with ⟨rfl, rfl⟩ | ⟨-, hrc⟩
    · rfl
    · exact hf.disjoint b c _ k y ha hrc (hsub y hyb) hyc
    · exact hf.disjoint b c m _ y hrb ha hyb (hsub y hyc)
    · exact hf.disjoint b c m k y hrb hrc hyb hyc

/-- Handing the sentinel role over to the unlinked member. -/
theorem RingFamily.listReplaceInit (hf : RingFamily h r p) (a x : α) (l : List α)
    (ha : r a = some (x :: l)) (hp : p a = some x) :
    ∃ h', listReplaceInit h a x = some h' ∧
      RingFamily h' (Function.update (Function.update r a (some [])) x (some l))
        (Function.update p a none) ∧
      ∀ y, y ∉ a :: x :: l → h' y = h y := by
  obtain ⟨l', hl', hrl⟩ := hf.taking a x hp
  rw [ha, Option.some.injEq, List.cons.injEq] at hl'
  obtain rfl : l = l' := hl'.2
  have hnd := List.nodup_cons.mp (hf.nodup a _ ha)
  have hxl := List.nodup_cons.mp hnd.2
  have hxa : x ≠ a := fun he => hnd.1 (by simp [he])
  have hal : a ∉ l := fun hm => hnd.1 (List.mem_cons_of_mem x hm)
  have hxn : x ∉ a :: l := by
    simp only [List.mem_cons, not_or]
    exact ⟨hxa, hxl.1⟩
  obtain ⟨h', hh, hr, hself, hfr⟩ := ring_listReplaceInit h a x l hrl hxn
  have hfr' : ∀ y, y ∉ a :: x :: l → h' y = h y := by
    intro y hy
    simp only [List.mem_cons, not_or] at hy
    exact hfr y hy.2.1 (by simp only [List.mem_cons, not_or]; exact ⟨hy.1, hy.2.2⟩)
  have hrx := hf.member_not_sentinel a x _ ha List.mem_cons_self
  have hpx := hf.pending_none x hrx
  refine ⟨h', hh, ⟨?_, ?_, ?_, ?_⟩, hfr'⟩
  · intro b m hb hpb
    rcases update_some_some_cases hb with ⟨rfl, rfl⟩ | ⟨rfl, rfl⟩ | ⟨hbx, hba, hrb⟩
    · exact hr
    · exact (ring_nil_iff h' b).mpr hself
    · rw [Function.update_of_ne hba] at hpb
      exact hf.other_ring h' a b _ m ha hrb hba hfr' m (List.Subset.refl m) (hf.ring b m hrb hpb)
  · intro b y hpb
    have hba : b ≠ a := by
      rintro rfl
      simp at hpb
    rw [Function.update_of_ne hba] at hpb
    obtain ⟨m, hm, hrm⟩ := hf.taking b y hpb
    have hbx : b ≠ x := by
      rintro rfl
      rw [hrx] at hm
      cases hm
    refine ⟨m, by rw [Function.update_of_ne hbx, Function.update_of_ne hba]; exact hm, ?_⟩
    exact hf.other_ring h' a b _ _ ha hm hba hfr' m (List.subset_cons_self y m) hrm
  · intro b m hb
    rcases update_some_some_cases hb with ⟨rfl, rfl⟩ | ⟨rfl, rfl⟩ | ⟨-, -, hrb⟩
    · exact hnd.2
    · simp
    · exact hf.nodup b m hrb
  · intro b c m k y hb hc hyb hyc
    -- the old ring is split in two, and every other ring stays clear of both halves
    have hout (d : α) (n : List α) (hda : d ≠ a) (hd : r d = some n) (hyd : y ∈ d :: n) :
        y ∉ a :: x :: l := fun hya => hda (hf.disjoint a d _ n y ha hd hya hyd).symm
    rcases update_some_some_cases hb with ⟨rfl, rfl⟩ | ⟨rfl, rfl⟩ | ⟨hbx, hba, hrb⟩ <;>
      rcases update_some_some_cases hc with ⟨rfl, rfl⟩ | ⟨rfl, rfl⟩ | ⟨hcx, hca, hrc⟩
    · rfl
    · rw [List.mem_singleton] at hyc
      exact absurd (hyc ▸ hyb) hnd.1
    · exact absurd (List.mem_cons_of_mem a hyb) (hout c k hca hrc hyc)
    · rw [List.mem_singleton] at hyb
      exact absurd (hyb ▸ hyc) hnd.1
    · rfl
    · rw [List.mem_singleton] at hyb
      exact absurd (hyb ▸ List.mem_cons_self) (hout c k hca hrc hyc)
    · exact absurd (List.mem_cons_of_mem a hyc) (hout b m hba hrb hyb)
    · rw [List.mem_singleton] at hyc
      exact absurd (hyc ▸ List.mem_cons_self) (hout b m hba hrb hyb)
    · exact hf.disjoint b c m k y hrb hrc hyb hyc

/-- Both halves in one go. -/
theorem RingFamily.takeFirst (hf : RingFamily h r p) (a x : α) (l : List α)
    (ha : r a = some (x :: l)) (hp : p a = none) :
    ∃ h', takeFirst h a = some (x, h') ∧
      RingFamily h' (Function.update (Function.update r a (some [])) x (some l)) p ∧
      ∀ y, y ∉ a :: x :: l → h' y = h y := by
  obtain ⟨h₁, hd, hf₁, hfr₁⟩ := hf.listDel a x l ha hp
  obtain ⟨h₂, hr, hf₂, hfr₂⟩ := hf₁.listReplaceInit a x l ha (Function.update_self a _ p)
  have hnext : (h a).next = .node x := (hf.ring a _ ha hp).1.1.1
  have hpu : Function.update (Function.update p a (some x)) a none = p := by
    rw [Function.update_idem, ← hp, Function.update_eq_self]
  refine ⟨h₂, ?_, hpu ▸ hf₂, fun y hy => (hfr₂ y hy).trans (hfr₁ y hy)⟩
  simp only [KernelList.takeFirst, hnext, hd, hr, Option.bind_eq_bind, Option.bind_some,
    Option.pure_def]

/-- Inserting a loose node somewhere in one ring. -/
theorem RingFamily.insert (hf : RingFamily h r p) (h' : Heap α) (a new : α) (l k : List α)
    (ha : r a = some l) (hp : p a = none) (hnew : Loose r new) (hna : new ≠ a)
    (hr : Ring h' a k) (hk : ∀ y ∈ k, y = new ∨ y ∈ l)
    (hfr : ∀ y, y ≠ new → y ∉ a :: l → h' y = h y) :
    RingFamily h' (Function.update (Function.update r new none) a (some k)) p := by
  -- the rings that are neither grown nor given up contain none of the nodes written
  have hout (b : α) (m : List α) (hba : b ≠ a) (hbn : b ≠ new) (hb : r b = some m) (y : α)
      (hy : y ∈ b :: m) : y ≠ new ∧ y ∉ a :: l := by
    refine ⟨?_, fun hya => hba (hf.disjoint a b l m y ha hb hya hy).symm⟩
    rintro rfl
    exact hbn (hnew b m hb hy).1
  have hother (b : α) (m n : List α) (hba : b ≠ a) (hbn : b ≠ new) (hb : r b = some m)
      (hn : n ⊆ m) (hrn : Ring h b n) : Ring h' b n := by
    refine ring_congr h h' b n (fun y hy => ?_) hrn
    have hym : y ∈ b :: m := by
      rcases List.mem_cons.mp hy with he | hm
      · exact he ▸ List.mem_cons_self
      · exact List.mem_cons_of_mem b (hn hm)
    have ho := hout b m hba hbn hb y hym
    exact hfr y ho.1 ho.2
  refine ⟨?_, ?_, ?_, ?_⟩
  · intro b m hb hpb
    rcases update_none_some_cases hb with ⟨rfl, rfl⟩ | ⟨hba, hbn, hrb⟩
    · exact hr
    · exact hother b m m hba hbn hrb (List.Subset.refl m) (hf.ring b m hrb hpb)
  · intro b y hpb
    obtain ⟨m, hm, hrm⟩ := hf.taking b y hpb
    have hba : b ≠ a := by
      rintro rfl
      rw [hp] at hpb
      cases hpb
    have hbn : b ≠ new := by
      rintro rfl
      exact absurd (hnew b _ hm List.mem_cons_self).2 (List.cons_ne_nil y m)
    refine ⟨m, by rw [Function.update_of_ne hba, Function.update_of_ne hbn]; exact hm, ?_⟩
    exact hother b _ m hba hbn hm (List.subset_cons_self y m) hrm
  · intro b m hb
    rcases update_none_some_cases hb with ⟨rfl, rfl⟩ | ⟨-, -, hrb⟩
    · exact hr.2
    · exact hf.nodup b m hrb
  · intro b c m n y hb hc hyb hyc
    have hin (hy : y ∈ a :: k) : y = new ∨ y ∈ a :: l := by
      rcases List.mem_cons.mp hy with he | hm
      · exact Or.inr (he ▸ List.mem_cons_self)
      · exact (hk y hm).imp id (List.mem_cons_of_mem a)
    rcases update_none_some_cases hb with ⟨rfl, rfl⟩ | ⟨hba, hbn, hrb⟩ <;>
      rcases update_none_some_cases hc with ⟨rfl, rfl⟩ | ⟨hca, hcn, hrc⟩
    · rfl
    · have ho := hout c n hca hcn hrc y hyc
      exact absurd (hin hyb) (not_or.mpr ho)
    · have ho := hout b m hba hbn hrb y hyb
      exact absurd (hin hyc) (not_or.mpr ho)
    · exact hf.disjoint b c m n y hrb hrc hyb hyc

omit [DecidableEq α] in
theorem Loose.not_mem {a new : α} {l : List α} (hnew : Loose r new) (ha : r a = some l)
    (hna : new ≠ a) : new ∉ a :: l :=
  fun hm => hna (hnew a l ha hm).1.symm

omit [DecidableEq α] in
/-- A loose node is no member, and no sentinel of a ring with members. -/
theorem Loose.not_mem_cons {a b new : α} {l : List α} (hnew : Loose r new)
    (ha : r a = some (b :: l)) : new ∉ a :: b :: l :=
  fun hm => absurd (hnew a _ ha hm).2 (List.cons_ne_nil b l)

/-- A removal elsewhere leaves a loose node loose. -/
theorem Loose.takeFirst {a x new : α} {l : List α} (hnew : Loose r new)
    (ha : r a = some (x :: l)) :
    Loose (Function.update (Function.update r a (some [])) x (some l)) new := by
  have hno := hnew.not_mem_cons ha
  intro b m hb hm
  rcases update_some_some_cases hb with ⟨rfl, rfl⟩ | ⟨rfl, rfl⟩ | ⟨-, -, hrb⟩
  · exact absurd (List.mem_cons_of_mem a hm) hno
  · rw [List.mem_singleton] at hm
    exact absurd (hm ▸ List.mem_cons_self) hno
  · exact hnew b m hrb hm

/-- So does the insertion of another node. -/
theorem Loose.insert {a x new : α} {l k : List α} (hnew : Loose r new) (ha : r a = some l)
    (hna : new ≠ a) (hnx : new ≠ x) (hk : ∀ y ∈ k, y = x ∨ y ∈ l) :
    Loose (Function.update (Function.update r x none) a (some k)) new := by
  intro b m hb hm
  rcases update_none_some_cases hb with ⟨rfl, rfl⟩ | ⟨-, -, hrb⟩
  · rcases List.mem_cons.mp hm with he | hm
    · exact absurd he hna
    · rcases hk new hm with he | hl
      · exact absurd he hnx
      · exact absurd (List.mem_cons_of_mem b hl) (hnew.not_mem ha hna)
  · exact hnew b m hrb hm

theorem RingFamily.listAddTail (hf : RingFamily h r p) (a new : α) (l : List α)
    (ha : r a = some l) (hp : p a = none) (hnew : Loose r new) (hna : new ≠ a) :
    ∃ h', listAddTail h new a = some h' ∧
      RingFamily h' (Function.update (Function.update r new none) a (some (l ++ [new]))) p ∧
      ∀ y, y ≠ new → y ∉ a :: l → h' y = h y := by
  obtain ⟨h', hh, hr, hfr⟩ := ring_listAddTail h a new l (hf.ring a l ha hp)
    (hnew.not_mem ha hna)
  refine ⟨h', hh, hf.insert h' a new l _ ha hp hnew hna hr (fun y hy => ?_) hfr, hfr⟩
  rcases List.mem_append.mp hy with hm | hm
  · exact Or.inr hm
  · exact Or.inl (List.mem_singleton.mp hm)

theorem RingFamily.listAdd (hf : RingFamily h r p) (a new : α) (l : List α)
    (ha : r a = some l) (hp : p a = none) (hnew : Loose r new) (hna : new ≠ a) :
    ∃ h', listAdd h new a = some h' ∧
      RingFamily h' (Function.update (Function.update r new none) a (some (new :: l))) p ∧
      ∀ y, y ≠ new → y ∉ a :: l → h' y = h y := by
  obtain ⟨h', hh, hr, hfr⟩ := ring_listAdd h a new l (hf.ring a l ha hp) (hnew.not_mem ha hna)
  exact ⟨h', hh, hf.insert h' a new l _ ha hp hnew hna hr (fun y hy => List.mem_cons.mp hy) hfr,
    hfr⟩

end Family

end KernelList
