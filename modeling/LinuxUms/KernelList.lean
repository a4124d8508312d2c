import Mathlib.Data.List.Nodup
import Mathlib.Logic.Function.Basic

/-! Circular doubly linked lists of the kernel kind: nodes embedded in other objects,
a sentinel that is itself a node, and primitives that write `next` and `prev` one store
at a time. A store through a pointer that is no node faults. -/
namespace KernelList

/-- The values of a `struct list_head *`. -/
inductive Ptr (α : Type*) where
  | null
  | poison1
  | poison2
  | node (a : α)
  deriving DecidableEq

@[ext]
structure Links (α : Type*) where
  next : Ptr α
  prev : Ptr α
  deriving DecidableEq

abbrev Heap (α : Type*) := α → Links α

variable {α : Type*} [DecidableEq α]

/-- `p->next = v`, a fault unless `p` points to a node. -/
def storeNext (h : Heap α) (p v : Ptr α) : Option (Heap α) :=
  match p with
  | .node a => some (Function.update h a { h a with next := v })
  | _ => none

/-- `p->prev = v`, a fault unless `p` points to a node. -/
def storePrev (h : Heap α) (p v : Ptr α) : Option (Heap α) :=
  match p with
  | .node a => some (Function.update h a { h a with prev := v })
  | _ => none

def initListHead (h : Heap α) (a : α) : Heap α :=
  Function.update h a ⟨.node a, .node a⟩

def listEmpty (h : Heap α) (a : α) : Bool :=
  decide ((h a).next = .node a)

/-- `__list_add(new, prev, next)`. -/
def listAddBetween (h : Heap α) (new : α) (prev next : Ptr α) : Option (Heap α) := do
  let h ← storePrev h next (.node new)
  let h ← storeNext h (.node new) next
  let h ← storePrev h (.node new) prev
  storeNext h prev (.node new)

def listAdd (h : Heap α) (new head : α) : Option (Heap α) :=
  listAddBetween h new (.node head) (h head).next

def listAddTail (h : Heap α) (new head : α) : Option (Heap α) :=
  listAddBetween h new (h head).prev (.node head)

/-- `__list_del(prev, next)` on the neighbours read first, then the two poisons. -/
def listDel (h : Heap α) (entry : α) : Option (Heap α) := do
  let prev := (h entry).prev
  let next := (h entry).next
  let h ← storePrev h next prev
  let h ← storeNext h prev next
  let h ← storeNext h (.node entry) .poison1
  storePrev h (.node entry) .poison2

/-- The neighbours of `old` are read again after the first store, so the aliasing of a
self-linked `old` is in the model. -/
def listReplace (h : Heap α) (old new : α) : Option (Heap α) := do
  let h ← storeNext h (.node new) (h old).next
  let h ← storePrev h (h new).next (.node new)
  let h ← storePrev h (.node new) (h old).prev
  storeNext h (h new).prev (.node new)

def listReplaceInit (h : Heap α) (old new : α) : Option (Heap α) := do
  let h ← listReplace h old new
  return initListHead h old

/-- The entries that a `list_for_each_entry` with `n` rounds visits from `p` on; it ends when it
is back at the head. -/
def listForEach (h : Heap α) (head : α) : ℕ → Ptr α → Option (List α)
  | 0, p => if p = .node head then some [] else none
  | n + 1, .node x =>
    if x = head then none else (listForEach h head n (h x).next).map (x :: ·)
  | _ + 1, _ => none

def Linked (h : Heap α) (a b : α) : Prop := (h a).next = .node b ∧ (h b).prev = .node a

/-- Walking `next` from `a` visits exactly `l` before `b`, and `prev` walks back. -/
def Seg (h : Heap α) : α → List α → α → Prop
  | a, [], b => Linked h a b
  | a, x :: l, b => Linked h a x ∧ Seg h x l b

/-- A well-formed list with sentinel `a` and the distinct members `l`, in order. -/
def Ring (h : Heap α) (a : α) (l : List α) : Prop := Seg h a l a ∧ (a :: l).Nodup

/-- A node linked to itself: an empty list, or an element that is in no list. -/
def SelfLinked (h : Heap α) (a : α) : Prop := h a = ⟨.node a, .node a⟩

omit [DecidableEq α] in
/-- A segment reads `next` up to its last member and `prev` from its first member on. -/
theorem seg_congr (h h' : Heap α) (a b : α) (l : List α)
    (hn : ∀ x ∈ a :: l, (h' x).next = (h x).next)
    (hp : ∀ x ∈ l ++ [b], (h' x).prev = (h x).prev) (hs : Seg h a l b) : Seg h' a l b := by
  induction l generalizing a with
  | nil =>
    exact ⟨(hn a (by simp)).trans hs.1, (hp b (by simp)).trans hs.2⟩
  | cons x l ih =>
    refine ⟨⟨(hn a (by simp)).trans hs.1.1, (hp x (by simp)).trans hs.1.2⟩, ?_⟩
    exact ih x (fun y hy => hn y (List.mem_cons_of_mem a hy))
      (fun y hy => hp y (by simp only [List.cons_append]; exact List.mem_cons_of_mem x hy)) hs.2

omit [DecidableEq α] in
theorem seg_append_iff (h : Heap α) (a x b : α) (l m : List α) :
    Seg h a (l ++ x :: m) b ↔ Seg h a l x ∧ Seg h x m b := by
  induction l generalizing a with
  | nil => rfl
  | cons y l ih => simp only [List.cons_append, Seg, ih, and_assoc]

omit [DecidableEq α] in
/-- The neighbours of the sentinel: the first member ahead, the last member behind. -/
theorem seg_ends (h : Heap α) (a b : α) (l : List α) (hs : Seg h a l b) :
    (h a).next = .node (l.head?.getD b) ∧ (h b).prev = .node (l.getLast?.getD a) := by
  constructor
  · cases l with
    | nil => exact hs.1
    | cons x l => exact hs.1.1
  · rcases List.eq_nil_or_concat l with rfl | ⟨m, x, rfl⟩
    · exact hs.2
    · rw [List.concat_eq_append, seg_append_iff] at hs
      simpa using hs.2.2

omit [DecidableEq α] in
/-- A ring depends on its own nodes only. -/
theorem ring_congr (h h' : Heap α) (a : α) (l : List α)
    (he : ∀ x ∈ a :: l, h' x = h x) (hr : Ring h a l) : Ring h' a l := by
  refine ⟨seg_congr h h' a a l (fun x hx => by rw [he x hx]) (fun x hx => ?_) hr.1, hr.2⟩
  rw [he x (by simp only [List.mem_append, List.mem_cons] at hx ⊢; tauto)]

omit [DecidableEq α] in
/-- A member of a ring is not linked to itself. -/
theorem ring_member_next (h : Heap α) (a x : α) (l : List α) (hr : Ring h a l) (hx : x ∈ l) :
    (h x).next ≠ .node x := by
  obtain ⟨l₁, l₂, rfl⟩ := List.append_of_mem hx
  have hs := ((seg_append_iff h a x a l₁ l₂).mp hr.1).2
  rw [(seg_ends h x a l₂ hs).1]
  intro he
  rw [Ptr.node.injEq] at he
  have hnd := hr.2
  cases l₂ with
  | nil =>
    subst he
    simp at hnd
  | cons y l₂ =>
    obtain rfl : y = x := he
    simp [List.nodup_append] at hnd

omit [DecidableEq α] in
theorem ring_nil_iff (h : Heap α) (a : α) : Ring h a [] ↔ SelfLinked h a := by
  constructor
  · intro hr
    exact congrArg₂ Links.mk hr.1.1 hr.1.2
  · intro hs
    exact ⟨⟨congrArg Links.next hs, congrArg Links.prev hs⟩, by simp⟩

omit [DecidableEq α] in
theorem seg_unique (h : Heap α) (a b : α) (l m : List α) (hl : Seg h a l b) (hm : Seg h a m b)
    (hbl : b ∉ l) (hbm : b ∉ m) : l = m := by
  induction l generalizing a m with
  | nil =>
    cases m with
    | nil => rfl
    | cons y m =>
      have hy : y = b := Ptr.node.inj (hm.1.1.symm.trans hl.1)
      exact absurd (hy ▸ List.mem_cons_self) hbm
  | cons x l ih =>
    cases m with
    | nil =>
      have hx : x = b := Ptr.node.inj (hl.1.1.symm.trans hm.1)
      exact absurd (hx ▸ List.mem_cons_self) hbl
    | cons y m =>
      have hxy : x = y := Ptr.node.inj (hl.1.1.symm.trans hm.1.1)
      subst hxy
      rw [ih x m hl.2 hm.2 (fun h => hbl (List.mem_cons_of_mem x h))
        (fun h => hbm (List.mem_cons_of_mem x h))]

omit [DecidableEq α] in
/-- The heap determines what a ring holds. -/
theorem ring_unique (h : Heap α) (a : α) (l m : List α) (hl : Ring h a l) (hm : Ring h a m) :
    l = m := by
  apply seg_unique h a a l m hl.1 hm.1
  · exact (List.nodup_cons.mp hl.2).1
  · exact (List.nodup_cons.mp hm.2).1

/-- A loop over a ring visits its members in order. -/
theorem seg_listForEach (h : Heap α) (a b : α) (l : List α) (hs : Seg h b l a) (ha : a ∉ l)
    (n : ℕ) : listForEach h a n (h b).next = if n = l.length then some l else none := by
  induction l generalizing b n with
  | nil => cases n <;> simp [listForEach, hs.1]
  | cons x l ih =>
    have hxa : x ≠ a := fun he => ha (he ▸ List.mem_cons_self)
    have hl := ih x hs.2 (fun hm => ha (List.mem_cons_of_mem x hm))
    cases n with
    | zero => simp [listForEach, hs.1.1, hxa]
    | succ n =>
      simp only [listForEach, hs.1.1, hxa, if_false, hl, List.length_cons, Nat.add_right_cancel_iff]
      split <;> rfl

theorem ring_listForEach (h : Heap α) (a : α) (l : List α) (hr : Ring h a l) (n : ℕ) :
    listForEach h a n (h a).next = if n = l.length then some l else none :=
  seg_listForEach h a a l hr.1 (List.nodup_cons.mp hr.2).1 n

/-- `list_empty` decides whether a ring has members. -/
theorem listEmpty_ring (h : Heap α) (a : α) (l : List α) (hr : Ring h a l) :
    listEmpty h a = true ↔ l = [] := by
  have he := (seg_ends h a a l hr.1).1
  unfold listEmpty
  rw [he, decide_eq_true_iff]
  cases l with
  | nil => simp
  | cons x l =>
    have hx : x ≠ a := fun hxa => (List.nodup_cons.mp hr.2).1 (hxa ▸ List.mem_cons_self)
    simp [hx]

theorem listAddBetween_fields (h : Heap α) (new p n : α) (hp : new ≠ p) (hn : new ≠ n) :
    ∃ h', listAddBetween h new (.node p) (.node n) = some h' ∧
      (∀ x, (h' x).next = if x = p then .node new else if x = new then .node n else (h x).next) ∧
      ∀ x, (h' x).prev = if x = new then .node p else if x = n then .node new else (h x).prev := by
  refine ⟨_, rfl, fun x => ?_, fun x => ?_⟩
  · by_cases hxp : x = p
    · simp [hxp]
    · by_cases hxn : x = new <;> by_cases hxm : x = n <;> simp_all [Function.update_apply]
  · by_cases hxp : x = p <;> by_cases hxn : x = new <;> by_cases hxm : x = n <;>
      simp_all [Function.update_apply]

theorem listDel_fields (h : Heap α) (e p n : α) (hp : (h e).prev = .node p)
    (hn : (h e).next = .node n) (hep : e ≠ p) (hen : e ≠ n) :
    ∃ h', listDel h e = some h' ∧
      (∀ x, (h' x).next = if x = e then .poison1 else if x = p then .node n else (h x).next) ∧
      ∀ x, (h' x).prev = if x = e then .poison2 else if x = n then .node p else (h x).prev := by
  unfold listDel
  rw [hp, hn]
  refine ⟨_, rfl, fun x => ?_, fun x => ?_⟩
  · by_cases hxe : x = e <;> by_cases hxp : x = p <;> by_cases hxn : x = n <;>
      simp_all [Function.update_apply]
  · by_cases hxe : x = e <;> by_cases hxp : x = p <;> by_cases hxn : x = n <;>
      simp_all [Function.update_apply]

/-- Replacing the head of an empty list: every store aliases `old` or `new`. -/
theorem listReplaceInit_nil (h : Heap α) (old new : α) (hs : SelfLinked h old) (hne : new ≠ old) :
    ∃ h', listReplaceInit h old new = some h' ∧ SelfLinked h' old ∧ SelfLinked h' new ∧
      ∀ x, x ≠ old → x ≠ new → h' x = h x := by
  have hs' : h old = ⟨.node old, .node old⟩ := hs
  refine ⟨initListHead (Function.update h new ⟨.node new, .node new⟩) old, ?_, ?_, ?_, ?_⟩
  · unfold listReplaceInit listReplace
    simp only [storeNext, storePrev, hs', Function.update_self, Option.bind_eq_bind,
      Option.bind_some, Function.update_of_ne hne.symm, Option.pure_def, Option.some.injEq]
    funext x
    by_cases hxo : x = old
    · simp [initListHead, hxo]
    · by_cases hxn : x = new <;> simp_all [initListHead]
  · simp [SelfLinked, initListHead]
  · simp [SelfLinked, initListHead, Function.update_of_ne hne]
  · intro x hxo hxn
    simp [initListHead, Function.update_of_ne hxo, Function.update_of_ne hxn]

theorem listReplaceInit_fields (h : Heap α) (old new f g : α) (hf : (h old).next = .node f)
    (hg : (h old).prev = .node g) (hfo : f ≠ old) (hgo : g ≠ old) (hno : new ≠ old)
    (hnf : new ≠ f) (hng : new ≠ g) :
    ∃ h', listReplaceInit h old new = some h' ∧
      (∀ x, (h' x).next = if x = old then .node old else if x = g then .node new
        else if x = new then .node f else (h x).next) ∧
      ∀ x, (h' x).prev = if x = old then .node old else if x = new then .node g
        else if x = f then .node new else (h x).prev := by
  unfold listReplaceInit listReplace
  simp only [storeNext, storePrev, hf, hg, Function.update_self, Option.bind_eq_bind,
    Option.bind_some, Function.update_of_ne hno.symm, Function.update_of_ne hfo.symm,
    Function.update_of_ne hnf]
  refine ⟨_, rfl, fun x => ?_, fun x => ?_⟩
  · by_cases hxo : x = old
    · simp [initListHead, hxo]
    · by_cases hxg : x = g <;> by_cases hxn : x = new <;> by_cases hxf : x = f <;>
        simp_all [initListHead, Function.update_apply]
  · by_cases hxo : x = old
    · simp [initListHead, hxo]
    · by_cases hxg : x = g <;> by_cases hxn : x = new <;> by_cases hxf : x = f <;>
        simp_all [initListHead, Function.update_apply]

/-- `list_add_tail` appends a node that is not in the ring, and writes the ring only. -/
theorem ring_listAddTail (h : Heap α) (a new : α) (l : List α) (hr : Ring h a l)
    (hnew : new ∉ a :: l) :
    ∃ h', listAddTail h new a = some h' ∧ Ring h' a (l ++ [new]) ∧
      ∀ x, x ≠ new → x ∉ a :: l → h' x = h x := by
  have hna : new ≠ a := fun he => hnew (he ▸ List.mem_cons_self)
  have hnd := List.nodup_cons.mp hr.2
  have hnodup : (a :: (l ++ [new])).Nodup := by
    have hc := List.Nodup.concat hnew hr.2
    simpa [List.concat_eq_append] using hc
  unfold listAddTail
  rw [(seg_ends h a a l hr.1).2]
  rcases List.eq_nil_or_concat l with rfl | ⟨m, p, rfl⟩
  · -- in an empty ring the sentinel is both neighbours
    obtain ⟨h', hh, hnx, hpv⟩ := listAddBetween_fields h new a a hna hna
    refine ⟨h', hh, ⟨⟨⟨?_, ?_⟩, ?_, ?_⟩, hnodup⟩, fun x hxn hxa => ?_⟩
    · simp [hnx]
    · simp [hpv]
    · simp [hnx, hna]
    · simp [hpv, hna.symm]
    · have hxa' : x ≠ a := fun he => hxa (he ▸ List.mem_cons_self)
      exact Links.ext (by simp [hnx, hxn, hxa']) (by simp [hpv, hxn, hxa'])
  · rw [List.concat_eq_append] at hr hnew hnd hnodup ⊢
    have hnp : new ≠ p := fun he => hnew (by simp [he])
    have hap : a ≠ p := fun he => hnd.1 (by simp [he])
    have hpm : p ∉ m := fun hm => by
      have := (List.nodup_append.mp hnd.2).2.2 p hm p (by simp)
      exact this rfl
    -- the new node goes between the last member `p` and the sentinel
    obtain ⟨h', hh, hnx, hpv⟩ := listAddBetween_fields h new p a hnp hna
    have hsplit := (seg_append_iff h a p a m []).mp hr.1
    refine ⟨h', by simpa using hh, ⟨?_, hnodup⟩, fun x hxn hxl => ?_⟩
    · rw [List.append_assoc, List.singleton_append, seg_append_iff]
      refine ⟨seg_congr h h' a p m (fun x hx => ?_) (fun x hx => ?_) hsplit.1,
        ⟨by simp [hnx], by simp [hpv]⟩, by simp [hnx, hnp], by simp [hpv, hna.symm]⟩
      · have hxp : x ≠ p := by
          rintro rfl
          rcases List.mem_cons.mp hx with he | hm
          · exact hap he.symm
          · exact hpm hm
        have hxn : x ≠ new := by
          rintro rfl
          rcases List.mem_cons.mp hx with he | hm
          · exact hna he
          · exact hnew (by simp [hm])
        simp [hnx, hxp, hxn]
      · have hxa : x ≠ a := by
          rintro rfl
          exact hnd.1 hx
        have hxn : x ≠ new := by
          rintro rfl
          exact hnew (List.mem_cons_of_mem a hx)
        simp [hpv, hxa, hxn]
    · have hxa : x ≠ a := fun he => hxl (he ▸ List.mem_cons_self)
      have hxp : x ≠ p := fun he => hxl (by simp [he])
      exact Links.ext (by simp [hnx, hxn, hxp]) (by simp [hpv, hxn, hxa])

/-- `list_add` puts a node that is not in the ring before its first member. -/
theorem ring_listAdd (h : Heap α) (a new : α) (l : List α) (hr : Ring h a l)
    (hnew : new ∉ a :: l) :
    ∃ h', listAdd h new a = some h' ∧ Ring h' a (new :: l) ∧
      ∀ x, x ≠ new → x ∉ a :: l → h' x = h x := by
  have hna : new ≠ a := fun he => hnew (he ▸ List.mem_cons_self)
  have hnl : new ∉ l := fun he => hnew (List.mem_cons_of_mem a he)
  have hnd := List.nodup_cons.mp hr.2
  have hnodup : (a :: new :: l).Nodup := by
    refine List.nodup_cons.mpr ⟨?_, List.nodup_cons.mpr ⟨hnl, hnd.2⟩⟩
    simp only [List.mem_cons, not_or]
    exact ⟨hna.symm, hnd.1⟩
  unfold listAdd
  rw [(seg_ends h a a l hr.1).1]
  cases l with
  | nil =>
    obtain ⟨h', hh, hnx, hpv⟩ := listAddBetween_fields h new a a hna hna
    refine ⟨h', hh, ⟨⟨⟨?_, ?_⟩, ?_, ?_⟩, hnodup⟩, fun x hxn hxa => ?_⟩
    · simp [hnx]
    · simp [hpv]
    · simp [hnx, hna]
    · simp [hpv, hna.symm]
    · have hxa' : x ≠ a := fun he => hxa (he ▸ List.mem_cons_self)
      exact Links.ext (by simp [hnx, hxn, hxa']) (by simp [hpv, hxn, hxa'])
  | cons f l =>
    have hnf : new ≠ f := fun he => hnl (by simp [he])
    have haf : a ≠ f := fun he => hnd.1 (by simp [he])
    have hfl := (List.nodup_cons.mp hnd.2).1
    -- the new node goes between the sentinel and the first member `f`
    obtain ⟨h', hh, hnx, hpv⟩ := listAddBetween_fields h new a f hna hnf
    refine ⟨h', by simpa using hh, ⟨⟨⟨by simp [hnx], by simp [hpv]⟩,
      ⟨by simp [hnx, hna], by simp [hpv, hnf.symm]⟩, ?_⟩, hnodup⟩, fun x hxn hxl => ?_⟩
    · refine seg_congr h h' f a l (fun x hx => ?_) (fun x hx => ?_) hr.1.2
      · have hxa : x ≠ a := fun he => hnd.1 (he ▸ hx)
        have hxn : x ≠ new := fun he => hnl (he ▸ hx)
        simp [hnx, hxa, hxn]
      · have hxf : x ≠ f := by
          rintro rfl
          rcases List.mem_append.mp hx with hm | hm
          · exact hfl hm
          · exact haf (List.mem_singleton.mp hm).symm
        have hxn : x ≠ new := by
          rintro rfl
          rcases List.mem_append.mp hx with hm | hm
          · exact hnl (List.mem_cons_of_mem f hm)
          · exact hna (List.mem_singleton.mp hm)
        simp [hpv, hxf, hxn]
    · have hxa : x ≠ a := fun he => hxl (he ▸ List.mem_cons_self)
      have hxf : x ≠ f := fun he => hxl (by simp [he])
      exact Links.ext (by simp [hnx, hxn, hxa]) (by simp [hpv, hxn, hxf])

/-- `list_del` of the first member unlinks it and poisons its node. -/
theorem ring_listDel (h : Heap α) (a x : α) (l : List α) (hr : Ring h a (x :: l)) :
    ∃ h', listDel h x = some h' ∧ Ring h' a l ∧ h' x = ⟨.poison1, .poison2⟩ ∧
      ∀ y, y ≠ x → y ∉ a :: l → h' y = h y := by
  have hnd := List.nodup_cons.mp hr.2
  have hxl := List.nodup_cons.mp hnd.2
  have hxa : x ≠ a := fun he => hnd.1 (by simp [he])
  have hal : a ∉ l := fun hm => hnd.1 (List.mem_cons_of_mem x hm)
  have hnodup : (a :: l).Nodup := List.nodup_cons.mpr ⟨hal, hxl.2⟩
  have hprev := hr.1.1.2
  cases l with
  | nil =>
    obtain ⟨h', hh, hnx, hpv⟩ := listDel_fields h x a a hprev hr.1.2.1 hxa hxa
    refine ⟨h', hh, ⟨⟨by simp [hnx, hxa.symm], by simp [hpv, hxa.symm]⟩, hnodup⟩,
      Links.ext (by simp [hnx]) (by simp [hpv]), fun y hyx hya => ?_⟩
    have hya' : y ≠ a := fun he => hya (he ▸ List.mem_cons_self)
    exact Links.ext (by simp [hnx, hyx, hya']) (by simp [hpv, hyx, hya'])
  | cons f l =>
    have hxf : x ≠ f := fun he => hxl.1 (by simp [he])
    have haf : a ≠ f := fun he => hal (by simp [he])
    have hfl := (List.nodup_cons.mp hxl.2).1
    -- the sentinel and the second member `f` become neighbours
    obtain ⟨h', hh, hnx, hpv⟩ := listDel_fields h x a f hprev hr.1.2.1.1 hxa hxf
    refine ⟨h', hh, ⟨⟨⟨by simp [hnx, hxa.symm], by simp [hpv, hxf.symm]⟩, ?_⟩, hnodup⟩,
      Links.ext (by simp [hnx]) (by simp [hpv]), fun y hyx hyl => ?_⟩
    · refine seg_congr h h' f a l (fun y hy => ?_) (fun y hy => ?_) hr.1.2.2
      · have hyx : y ≠ x := fun he => hxl.1 (he ▸ hy)
        have hya : y ≠ a := fun he => hal (he ▸ hy)
        simp [hnx, hyx, hya]
      · have hyx : y ≠ x := by
          rintro rfl
          rcases List.mem_append.mp hy with hm | hm
          · exact hxl.1 (List.mem_cons_of_mem f hm)
          · exact hxa (List.mem_singleton.mp hm)
        have hyf : y ≠ f := by
          rintro rfl
          rcases List.mem_append.mp hy with hm | hm
          · exact hfl hm
          · exact haf (List.mem_singleton.mp hm).symm
        simp [hpv, hyx, hyf]
    · have hya : y ≠ a := fun he => hyl (he ▸ List.mem_cons_self)
      have hyf : y ≠ f := fun he => hyl (by simp [he])
      exact Links.ext (by simp [hnx, hyx, hya]) (by simp [hpv, hyx, hyf])

omit [DecidableEq α] in
/-- New end points for a segment: its first member is relinked behind, its last ahead,
and the fields between its members stay. -/
theorem seg_retarget (h h' : Heap α) (a a' b b' : α) (l : List α) (hl : l ≠ []) (hnd : l.Nodup)
    (hf : ∀ f, l.head? = some f → Linked h' a' f) (hg : ∀ g, l.getLast? = some g → Linked h' g b')
    (hn : ∀ x ∈ l, l.getLast? ≠ some x → (h' x).next = (h x).next)
    (hp : ∀ x ∈ l, l.head? ≠ some x → (h' x).prev = (h x).prev)
    (hs : Seg h a l b) : Seg h' a' l b' := by
  induction l generalizing a a' with
  | nil => exact absurd rfl hl
  | cons f l ih =>
    cases l with
    | nil => exact ⟨hf f rfl, hg f rfl⟩
    | cons g m =>
      have hnd' := List.nodup_cons.mp hnd
      have hgf : g ≠ f := fun he => hnd'.1 (he ▸ List.mem_cons_self)
      have hlast : (f :: g :: m).getLast? = (g :: m).getLast? := List.getLast?_cons_cons
      have hfl : (g :: m).getLast? ≠ some f := fun he => hnd'.1 (List.mem_of_getLast? he)
      have hlink : Linked h' f g :=
        ⟨(hn f (by simp) (by rw [hlast]; exact hfl)).trans hs.2.1.1,
          (hp g (by simp) (by simp [hgf.symm])).trans hs.2.1.2⟩
      refine ⟨hf f rfl, ih f f (by simp) hnd'.2 ?_ ?_ ?_ ?_ hs.2⟩
      · intro y hy
        obtain rfl : g = y := by simpa using hy
        exact hlink
      · intro y hy
        exact hg y (hlast.trans hy)
      · intro x hx hxl
        exact hn x (List.mem_cons_of_mem f hx) (by rw [hlast]; exact hxl)
      · intro x hx _
        refine hp x (List.mem_cons_of_mem f hx) ?_
        rintro hxf
        obtain rfl : f = x := by simpa using hxf
        exact hnd'.1 hx

/-- `list_replace_init` hands the sentinel role over: `new` heads the members of `old`,
and `old` is left self-linked. -/
theorem ring_listReplaceInit (h : Heap α) (old new : α) (l : List α) (hr : Ring h old l)
    (hnew : new ∉ old :: l) :
    ∃ h', listReplaceInit h old new = some h' ∧ Ring h' new l ∧ SelfLinked h' old ∧
      ∀ x, x ≠ new → x ∉ old :: l → h' x = h x := by
  have hno : new ≠ old := fun he => hnew (he ▸ List.mem_cons_self)
  have hnl : new ∉ l := fun he => hnew (List.mem_cons_of_mem old he)
  have hnd := List.nodup_cons.mp hr.2
  have hends := seg_ends h old old l hr.1
  -- an empty ring is its own case: the sentinel has no first and last member to relink
  by_cases hl : l = []
  · subst hl
    obtain ⟨h', hh, ho, hn, hfr⟩ := listReplaceInit_nil h old new ((ring_nil_iff h old).mp hr) hno
    refine ⟨h', hh, (ring_nil_iff h' new).mpr hn, ho, fun x hxn hxo => hfr x ?_ hxn⟩
    exact fun he => hxo (he ▸ List.mem_cons_self)
  obtain ⟨f, hf⟩ := Option.ne_none_iff_exists'.mp (mt List.head?_eq_none_iff.mp hl)
  obtain ⟨g, hg⟩ := Option.ne_none_iff_exists'.mp (mt List.getLast?_eq_none_iff.mp hl)
  have hfm : f ∈ l := List.mem_of_head? hf
  have hgm : g ∈ l := List.mem_of_getLast? hg
  have hout (x : α) (hx : x ∈ l) : x ≠ old ∧ x ≠ new :=
    ⟨fun he => hnd.1 (he ▸ hx), fun he => hnl (he ▸ hx)⟩
  rw [hf, hg] at hends
  obtain ⟨h', hh, hnx, hpv⟩ := listReplaceInit_fields h old new f g hends.1 hends.2
    (hout f hfm).1 (hout g hgm).1 hno (hout f hfm).2.symm (hout g hgm).2.symm
  have hseg : Seg h' new l new := by
    refine seg_retarget h h' old new old new l hl hnd.2 ?_ ?_ ?_ ?_ hr.1
    · intro y hy
      obtain rfl : f = y := Option.some.inj (hf.symm.trans hy)
      exact ⟨by simp [hnx, hno, (hout g hgm).2.symm], by simp [hpv, hout f hfm]⟩
    · intro y hy
      obtain rfl : g = y := Option.some.inj (hg.symm.trans hy)
      exact ⟨by simp [hnx, hout g hgm], by simp [hpv, hno]⟩
    · intro x hx hxg
      have hxg' : x ≠ g := fun he => hxg (he ▸ hg)
      simp [hnx, hout x hx, hxg']
    · intro x hx hxf
      have hxf' : x ≠ f := fun he => hxf (he ▸ hf)
      simp [hpv, hout x hx, hxf']
  refine ⟨h', hh, ⟨hseg, List.nodup_cons.mpr ⟨hnl, hnd.2⟩⟩,
    Links.ext (by simp [hnx]) (by simp [hpv]), fun x hxn hxl => ?_⟩
  have hxo : x ≠ old := fun he => hxl (he ▸ List.mem_cons_self)
  have hxf : x ≠ f := fun he => hxl (List.mem_cons_of_mem old (he ▸ hfm))
  have hxg : x ≠ g := fun he => hxl (List.mem_cons_of_mem old (he ▸ hgm))
  exact Links.ext (by simp [hnx, hxo, hxn, hxg]) (by simp [hpv, hxo, hxn, hxf])

end KernelList
