import LinuxUms.RingFamily
import LinuxUms.StoreProgram

/-! The list primitives as programs of loads and stores, in the order in which `linux/list.h` makes
them. Run alone they do what the primitives do, and on a ring they stay in it. -/
namespace KernelList

open StoreProgram

inductive Field where
  | next
  | prev
  deriving DecidableEq

abbrev Cell (α : Type*) := α × Field

abbrev ListProg (α : Type*) := Prog (Cell α) (Ptr α) (Option α)

variable {α : Type*} [DecidableEq α]

def cells (h : Heap α) : Cell α → Ptr α
  | (a, .next) => (h a).next
  | (a, .prev) => (h a).prev

def ofCells (m : Cell α → Ptr α) : Heap α :=
  fun a => ⟨m (a, .next), m (a, .prev)⟩

/-- The cells of the nodes in `S`. -/
def cellsOf (S : Set α) : Set (Cell α) :=
  Set.preimage Prod.fst S

namespace ListProg

/-- Goes on with the node that a pointer leads to. -/
def atNode (p : Ptr α) (k : α → ListProg α) : ListProg α :=
  match p with
  | .node a => k a
  | _ => .fault

def listAddBetween (new : α) (prev next : Ptr α) (k : ListProg α) : ListProg α :=
  atNode next fun n =>
    .store (n, .prev) (.node new) <| .store (new, .next) next <| .store (new, .prev) prev <|
    atNode prev fun p => .store (p, .next) (.node new) k

def listAdd (new head : α) (k : ListProg α) : ListProg α :=
  .load (head, .next) fun next => listAddBetween new (.node head) next k

def listAddTail (new head : α) (k : ListProg α) : ListProg α :=
  .load (head, .prev) fun prev => listAddBetween new prev (.node head) k

def listDel (entry : α) (k : ListProg α) : ListProg α :=
  .load (entry, .prev) fun prev => .load (entry, .next) fun next =>
    atNode next fun n => .store (n, .prev) prev <|
    atNode prev fun p => .store (p, .next) next <|
    .store (entry, .next) .poison1 <| .store (entry, .prev) .poison2 k

def listReplace (old new : α) (k : ListProg α) : ListProg α :=
  .load (old, .next) fun next => .store (new, .next) next <|
  .load (new, .next) fun next => atNode next fun n => .store (n, .prev) (.node new) <|
  .load (old, .prev) fun prev => .store (new, .prev) prev <|
  .load (new, .prev) fun prev => atNode prev fun p => .store (p, .next) (.node new) k

def initListHead (a : α) (k : ListProg α) : ListProg α :=
  .store (a, .next) (.node a) <| .store (a, .prev) (.node a) k

def listReplaceInit (old new : α) (k : ListProg α) : ListProg α :=
  listReplace old new (initListHead old k)

/-- `list_first_entry`, `list_del` and `list_replace_init`. -/
def takeFirst (a : α) : ListProg α :=
  .load (a, .next) fun next => atNode next fun x =>
    listDel x (listReplaceInit a x (.ret (some x)))

/-- The same after a test of `list_empty`. -/
def pop (a : α) : ListProg α :=
  .load (a, .next) fun next => if next = .node a then .ret none else takeFirst a

end ListProg

section Exec

variable {h : Heap α} {k : ListProg α}

omit [DecidableEq α] in
@[simp]
theorem ofCells_cells (h : Heap α) : ofCells (cells h) = h := rfl

omit [DecidableEq α] in
@[simp]
theorem cells_ofCells (m : Cell α → Ptr α) : cells (ofCells m) = m := by
  funext ⟨a, f⟩
  cases f <;> rfl

theorem cells_setNext (h : Heap α) (a : α) (v : Ptr α) :
    cells (Function.update h a { h a with next := v }) =
      Function.update (cells h) (a, .next) v := by
  funext ⟨b, f⟩
  by_cases hb : b = a
  · subst hb
    cases f <;> simp [cells]
  · cases f <;> simp [cells, hb]

theorem cells_setPrev (h : Heap α) (a : α) (v : Ptr α) :
    cells (Function.update h a { h a with prev := v }) =
      Function.update (cells h) (a, .prev) v := by
  funext ⟨b, f⟩
  by_cases hb : b = a
  · subst hb
    cases f <;> simp [cells]
  · cases f <;> simp [cells, hb]

theorem exec_load_next (h : Heap α) (a : α) (k : Ptr α → ListProg α) :
    Prog.exec (.load (a, .next) k) (cells h) = (k (h a).next).exec (cells h) := rfl

theorem exec_load_prev (h : Heap α) (a : α) (k : Ptr α → ListProg α) :
    Prog.exec (.load (a, .prev) k) (cells h) = (k (h a).prev).exec (cells h) := rfl

/-- A store through a pointer. -/
theorem exec_atNode_next (h : Heap α) (p v : Ptr α) (k : ListProg α) :
    (ListProg.atNode p fun a => .store (a, .next) v k).exec (cells h) =
      (storeNext h p v).bind (fun h' => k.exec (cells h')) := by
  cases p with
  | node a =>
    show k.exec _ = k.exec _
    rw [cells_setNext]
  | _ => rfl

theorem exec_atNode_prev (h : Heap α) (p v : Ptr α) (k : ListProg α) :
    (ListProg.atNode p fun a => .store (a, .prev) v k).exec (cells h) =
      (storePrev h p v).bind (fun h' => k.exec (cells h')) := by
  cases p with
  | node a =>
    show k.exec _ = k.exec _
    rw [cells_setPrev]
  | _ => rfl

theorem exec_store_next (h : Heap α) (a : α) (v : Ptr α) (k : ListProg α) :
    Prog.exec (.store (a, .next) v k) (cells h) =
      (storeNext h (.node a) v).bind (fun h' => k.exec (cells h')) :=
  exec_atNode_next h (.node a) v k

theorem exec_store_prev (h : Heap α) (a : α) (v : Ptr α) (k : ListProg α) :
    Prog.exec (.store (a, .prev) v k) (cells h) =
      (storePrev h (.node a) v).bind (fun h' => k.exec (cells h')) :=
  exec_atNode_prev h (.node a) v k

theorem exec_listAddBetween (h : Heap α) (new : α) (prev next : Ptr α) (k : ListProg α) :
    (ListProg.listAddBetween new prev next k).exec (cells h) =
      (listAddBetween h new prev next).bind (fun h' => k.exec (cells h')) := by
  simp only [ListProg.listAddBetween, listAddBetween, exec_atNode_prev, exec_store_next,
    exec_store_prev, exec_atNode_next, Option.bind_eq_bind, Option.bind_assoc]

theorem exec_listAdd (h : Heap α) (new head : α) (k : ListProg α) :
    (ListProg.listAdd new head k).exec (cells h) =
      (listAdd h new head).bind (fun h' => k.exec (cells h')) := by
  rw [ListProg.listAdd, exec_load_next, exec_listAddBetween, listAdd]

theorem exec_listAddTail (h : Heap α) (new head : α) (k : ListProg α) :
    (ListProg.listAddTail new head k).exec (cells h) =
      (listAddTail h new head).bind (fun h' => k.exec (cells h')) := by
  rw [ListProg.listAddTail, exec_load_prev, exec_listAddBetween, listAddTail]

theorem exec_listDel (h : Heap α) (entry : α) (k : ListProg α) :
    (ListProg.listDel entry k).exec (cells h) =
      (listDel h entry).bind (fun h' => k.exec (cells h')) := by
  simp only [ListProg.listDel, listDel, exec_load_next, exec_load_prev, exec_atNode_prev,
    exec_store_next, exec_store_prev, exec_atNode_next, Option.bind_eq_bind, Option.bind_assoc]

theorem exec_listReplace (h : Heap α) (old new : α) (k : ListProg α) :
    (ListProg.listReplace old new k).exec (cells h) =
      (listReplace h old new).bind (fun h' => k.exec (cells h')) := by
  simp only [ListProg.listReplace, listReplace, exec_load_next, exec_load_prev, exec_atNode_prev,
    exec_store_next, exec_store_prev, exec_atNode_next, Option.bind_eq_bind, Option.bind_assoc]

theorem exec_initListHead (h : Heap α) (a : α) (k : ListProg α) :
    (ListProg.initListHead a k).exec (cells h) = k.exec (cells (initListHead h a)) := by
  have hset : storePrev (Function.update h a { h a with next := .node a }) (.node a) (.node a) =
      some (initListHead h a) := by
    simp [storePrev, initListHead]
  rw [ListProg.initListHead, exec_store_next]
  show Prog.exec (.store (a, .prev) (.node a) k) (cells _) = _
  rw [exec_store_prev, hset]
  rfl

theorem exec_takeFirst (h : Heap α) (a : α) :
    (ListProg.takeFirst a).exec (cells h) =
      (takeFirst h a).map (fun r => (some r.1, cells r.2)) := by
  rw [ListProg.takeFirst, exec_load_next, takeFirst]
  cases (h a).next with
  | node x =>
    show (ListProg.listDel x _).exec (cells h) =
      ((listDel h x).bind fun h => (listReplaceInit h a x).bind fun h => some (x, h)).map _
    rw [exec_listDel]
    cases listDel h x with
    | none => rfl
    | some h₁ =>
      show (ListProg.listReplaceInit a x _).exec (cells h₁) =
        ((listReplaceInit h₁ a x).bind _).map _
      rw [ListProg.listReplaceInit, exec_listReplace, listReplaceInit]
      cases listReplace h₁ a x with
      | none => rfl
      | some h₂ => exact exec_initListHead h₂ a _
  | _ => rfl

theorem exec_pop (h : Heap α) (a : α) :
    (ListProg.pop a).exec (cells h) =
      if listEmpty h a then some (none, cells h)
      else (takeFirst h a).map (fun r => (some r.1, cells r.2)) := by
  rw [ListProg.pop, exec_load_next, listEmpty]
  by_cases he : (h a).next = .node a
  · rw [if_pos he, if_pos (decide_eq_true he)]
    rfl
  · rw [if_neg he, if_neg (by simpa using he)]
    exact exec_takeFirst h a

end Exec

section Stays

variable {S : Set α} {k : ListProg α}

/-- A pointer that does not leave `S`. -/
def Inside (S : Set α) (p : Ptr α) : Prop :=
  ∀ a, p = .node a → a ∈ S

omit [DecidableEq α] in
theorem inside_node {a : α} (ha : a ∈ S) : Inside S (.node a) :=
  fun _ he => Ptr.node.inj he ▸ ha

omit [DecidableEq α] in
theorem inside_poison1 : Inside S .poison1 := nofun

omit [DecidableEq α] in
theorem inside_poison2 : Inside S .poison2 := nofun

/-- A program that reads the cells of `G` only. -/
abbrev Keeps (G S : Set α) (p : ListProg α) : Prop :=
  p.Stays (Inside S) (cellsOf G) (cellsOf S)

omit [DecidableEq α] in
theorem keeps_atNode {G : Set α} {p : Ptr α} {f : α → ListProg α} (hp : Inside S p)
    (hf : ∀ a ∈ S, Keeps G S (f a)) : Keeps G S (ListProg.atNode p f) := by
  cases p with
  | node a => exact hf a (hp a rfl)
  | _ => trivial

omit [DecidableEq α] in
theorem keeps_listAddBetween {G : Set α} {new : α} {prev next : Ptr α} (hnew : new ∈ S)
    (hprev : Inside S prev) (hnext : Inside S next) (hk : Keeps G S k) :
    Keeps G S (ListProg.listAddBetween new prev next k) := by
  apply keeps_atNode hnext
  intro n hn
  refine ⟨hn, inside_node hnew, hnew, hnext, hnew, hprev, ?_⟩
  apply keeps_atNode hprev
  intro p hp
  exact ⟨hp, inside_node hnew, hk⟩

omit [DecidableEq α] in
theorem keeps_listDel {entry : α} (he : entry ∈ S) (hk : Keeps S S k) :
    Keeps S S (ListProg.listDel entry k) := by
  refine ⟨he, fun prev hprev => ⟨he, fun next hnext => ?_⟩⟩
  apply keeps_atNode hnext
  intro n hn
  refine ⟨hn, hprev, ?_⟩
  apply keeps_atNode hprev
  intro p hp
  exact ⟨hp, hnext, he, inside_poison1, he, inside_poison2, hk⟩

omit [DecidableEq α] in
theorem keeps_listReplaceInit {old new : α} (ho : old ∈ S) (hn : new ∈ S) (hk : Keeps S S k) :
    Keeps S S (ListProg.listReplaceInit old new k) := by
  refine ⟨ho, fun next hnext => ⟨hn, hnext, hn, fun next' hnext' => ?_⟩⟩
  apply keeps_atNode hnext'
  intro n hn'
  refine ⟨hn', inside_node hn, ho, fun prev hprev => ⟨hn, hprev, hn, fun prev' hprev' => ?_⟩⟩
  apply keeps_atNode hprev'
  intro p hp
  exact ⟨hp, inside_node hn, ho, inside_node ho, ho, inside_node ho, hk⟩

theorem keeps_pop {a : α} (ha : a ∈ S) : Keeps S S (ListProg.pop a) := by
  refine ⟨ha, fun next _ => ?_⟩
  show Keeps S S (if next = .node a then .ret none else ListProg.takeFirst a)
  split
  · trivial
  · refine ⟨ha, fun next hnext => ?_⟩
    apply keeps_atNode hnext
    intro x hx
    exact keeps_listDel hx (keeps_listReplaceInit ha hx trivial)

omit [DecidableEq α] in
theorem seg_inside {h : Heap α} {a b : α} {l : List α} (hs : Seg h a l b) :
    (∀ x ∈ a :: l, ∃ y ∈ l ++ [b], (h x).next = .node y) ∧
      ∀ x ∈ l ++ [b], ∃ y ∈ a :: l, (h x).prev = .node y := by
  induction l generalizing a with
  | nil => simpa [Seg, Linked] using hs
  | cons c l ih =>
    obtain ⟨hnext, hprev⟩ := ih hs.2
    constructor
    · intro x hx
      rcases List.mem_cons.mp hx with rfl | hx
      · exact ⟨c, by simp, hs.1.1⟩
      · obtain ⟨y, hy, he⟩ := hnext x hx
        exact ⟨y, List.mem_cons_of_mem c hy, he⟩
    · intro x hx
      rcases List.mem_cons.mp hx with rfl | hx
      · exact ⟨a, by simp, hs.1.2⟩
      · obtain ⟨y, hy, he⟩ := hprev x hx
        exact ⟨y, List.mem_cons_of_mem a hy, he⟩

omit [DecidableEq α] in
/-- No pointer leaves a ring. -/
theorem ring_inside {h : Heap α} {a : α} {l : List α} (hr : Ring h a l)
    (hS : ∀ x ∈ a :: l, x ∈ S) : ∀ c ∈ cellsOf {x | x ∈ a :: l}, Inside S (cells h c) := by
  obtain ⟨hnext, hprev⟩ := seg_inside hr.1
  have hmem (y : α) : y ∈ l ++ [a] ↔ y ∈ a :: l := by simp [or_comm]
  rintro ⟨x, f⟩ hx b hb
  apply hS
  cases f with
  | next =>
    obtain ⟨y, hy, he⟩ := hnext x hx
    exact Ptr.node.inj (he.symm.trans hb) ▸ (hmem y).mp hy
  | prev =>
    obtain ⟨y, hy, he⟩ := hprev x ((hmem x).mpr hx)
    exact Ptr.node.inj (he.symm.trans hb) ▸ hy

/-- A program that reads a ring only, and does not leave `S`. -/
theorem within_of_ring {h : Heap α} {a : α} {l : List α} {p : ListProg α} (hr : Ring h a l)
    (hS : ∀ x ∈ a :: l, x ∈ S) (hp : Keeps {x | x ∈ a :: l} S p) :
    p.Within (cellsOf S) (cells h) :=
  hp.within (fun c hc => hS c.1 hc) (ring_inside hr hS)

omit [DecidableEq α] in
/-- The node before the head: the last one, or the head itself if there is no other. -/
theorem ring_last {h : Heap α} {a : α} {l : List α} (hr : Ring h a l) :
    ∃ b ∈ a :: l, (h a).prev = .node b ∧ (b = a → l = []) := by
  rcases List.eq_nil_or_concat l with rfl | ⟨m, x, rfl⟩
  · exact ⟨a, List.mem_cons_self, hr.1.2, fun _ => rfl⟩
  · have hs := hr.1
    rw [List.concat_eq_append, seg_append_iff] at hs
    refine ⟨x, by simp, hs.2.2, ?_⟩
    rintro rfl
    have hnd := hr.2
    simp at hnd

/-- What `list_add_tail` of `x` touches in a list with the head `a` and the last node `b`. -/
def tailCells (a x b : α) : Set (Cell α) :=
  {(a, .prev), (x, .next), (x, .prev), (b, .next)}

theorem within_listAddTail {h : Heap α} {a b : α} (hb : (h a).prev = .node b) (x : α)
    (r : Option α) : (ListProg.listAddTail x a (.ret r)).Within (tailCells a x b) (cells h) := by
  refine ⟨by simp [tailCells], ?_⟩
  show (ListProg.listAddBetween x (h a).prev (.node a) (.ret r)).Within _ (cells h)
  rw [hb]
  refine ⟨?_, ?_, ?_, ?_, trivial⟩ <;> simp [tailCells]

end Stays

end KernelList
