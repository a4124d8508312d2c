import LinuxUms.RingFamily
import Mathlib.Data.Int.Notation
import Mathlib.Data.Nat.Notation
import Mathlib.Logic.Relation

/-! The pointer part of `complist.c`: insertion, dequeue and batch iteration on list nodes.
A completion list has a head of its own; every worker context has one node, which is in
turn an element, the sentinel of a dequeued batch, and self-linked. -/
namespace LinuxUms

open KernelList

/-- `pid_t`. -/
abbrev Pid := ℤ

/-- `ums_comp_list_id_t`. -/
abbrev ListId := ℤ

inductive Role where
  | worker
  | scheduler
  deriving DecidableEq

/-- The `struct list_head` fields: `ums_complist.head` and `ums_context.list`. -/
inductive Node where
  | head (l : ListId)
  | context (c : Pid)
  deriving DecidableEq

def complistAddHead : ℕ := 1

def complistAddTail : ℕ := 2

/-- The insertion made by `ums_completion_list_add` under `complist->lock`. -/
def umsCompletionListAdd (h : Heap Node) (complist : ListId) (context : Pid) (flags : ℕ) :
    Option (Heap Node) :=
  if flags &&& complistAddHead ≠ 0 then
    listAdd h (.context context) (.head complist)
  else if flags &&& complistAddTail ≠ 0 then
    listAddTail h (.context context) (.head complist)
  else some h

/-- The removal made by `do_dequeue_ums_complist_context` once its wait loop has seen the
list non-empty. -/
def doDequeueUmsComplistContext (h : Heap Node) (complist : ListId) :
    Option (Node × Heap Node) :=
  takeFirst h (.head complist)

/-- The list part of `ums_complist_next_context` on the context found for its argument;
`none` as a result is the end of the batch. -/
def umsComplistNextContext (h : Heap Node) (context : Pid) :
    Option (Option Node × Heap Node) :=
  if listEmpty h (.context context) then some (none, h)
  else (takeFirst h (.context context)).map (fun r => (some r.1, r.2))

/-- `get_next_ums_list_item` of the library, on the ioctl result and `ums_next_context`. -/
def getNextUmsListItem (retval : ℤ) (umsNextContext : Pid) : Pid :=
  if retval ≠ 0 then retval else if umsNextContext = -1 then 0 else umsNextContext

/-- The two list primitives of a removal are separate steps. `context a` is the local variable
of the call at work on sentinel `a`, between its `list_del` and its `list_replace_init`; for
the head of a completion list this is the time `complist->lock` is held. -/
structure ListState where
  heap : Heap Node
  context : Node → Option Pid

inductive ListOp where
  -- `ums_completion_list_add(complist, context, COMPLIST_ADD_TAIL)`.
  | add (l : ListId) (c : Pid)
  | dequeueDel (l : ListId)
  | dequeueReplace (l : ListId)
  | nextDel (c : Pid)
  | nextReplace (c : Pid)
  deriving DecidableEq

/-- The sentinel an operation works on. -/
def ListOp.sentinel : ListOp → Node
  | .add l _ | .dequeueDel l | .dequeueReplace l => .head l
  | .nextDel c | .nextReplace c => .context c

/-- First half of a removal; a first entry that is no worker context is a fault. -/
def ListState.unlinkFirst (s : ListState) (a : Node) : Option ListState :=
  match (s.heap a).next with
  | .node (.context c) => do
    let h ← listDel s.heap (.context c)
    return ⟨h, Function.update s.context a (some c)⟩
  | _ => none

/-- Second half of a removal. -/
def ListState.replaceHead (s : ListState) (a : Node) : Option (Pid × ListState) := do
  let c ← s.context a
  let h ← listReplaceInit s.heap a (.context c)
  return (c, ⟨h, Function.update s.context a none⟩)

/-- What a step reports to its caller: nothing yet, or a context pid as written to user
space, which is -1 at the end of a batch. -/
abbrev Ret := Option Pid

def ListState.step (s : ListState) : ListOp → Option (Ret × ListState)
  | .add l c => do
    let h ← umsCompletionListAdd s.heap l c complistAddTail
    return (none, ⟨h, s.context⟩)
  | .dequeueDel l => do
    let s ← s.unlinkFirst (.head l)
    return (none, s)
  | .dequeueReplace l => do
    let r ← s.replaceHead (.head l)
    return (some r.1, r.2)
  | .nextDel c =>
    if listEmpty s.heap (.context c) then some (some (-1), s)
    else do
      let s ← s.unlinkFirst (.context c)
      return (none, s)
  | .nextReplace c => do
    let r ← s.replaceHead (.context c)
    return (some r.1, r.2)

/-- The halves belong together: a removal is finished by the call that began it, and until
then nobody else is inside the component, by `complist->lock` for a completion list and
because a scheduler makes one call at a time for a batch. -/
def ListState.Free (s : ListState) : ListOp → Prop
  | .add l _ | .dequeueDel l => s.context (.head l) = none
  | .nextDel c => s.context (.context c) = none
  | .dequeueReplace l => s.context (.head l) ≠ none
  | .nextReplace c => s.context (.context c) ≠ none

/-- A queue for each completion list. `batch c = some cs` says that `c` is the context last
returned of a batch that is still being drained, and `cs` is what remains of it; `drained c`
that `c` has been returned, its batch has moved on, and it has not been inserted since. -/
structure Fifo where
  queue : ListId → List Pid
  batch : Pid → Option (List Pid)
  drained : Pid → Bool

def Fifo.init : Fifo := ⟨fun _ => [], fun _ => none, fun _ => false⟩

/-- A context that is linked nowhere: not queued, not waiting in a batch, and not the handle
of a batch whose end has not been reported yet. -/
def Fifo.Unlinked (σ : Fifo) (c : Pid) : Prop :=
  (∀ l, c ∉ σ.queue l) ∧ σ.batch c = none ∧ ∀ d ds, σ.batch d = some ds → c ∉ ds

/-- The abstract queues. A removal takes effect when its second half does. -/
inductive Fifo.Step : Fifo → ListOp → Ret → Fifo → Prop where
  | add (σ : Fifo) (l : ListId) (c : Pid) (hu : σ.Unlinked c) (hc : 0 < c) :
      Step σ (.add l c) none
        ⟨Function.update σ.queue l (σ.queue l ++ [c]), σ.batch, Function.update σ.drained c false⟩
  | dequeueDel (σ : Fifo) (l : ListId) (c : Pid) (cs : List Pid) (hq : σ.queue l = c :: cs) :
      Step σ (.dequeueDel l) none σ
  | dequeueReplace (σ : Fifo) (l : ListId) (c : Pid) (cs : List Pid) (hq : σ.queue l = c :: cs) :
      Step σ (.dequeueReplace l) (some c)
        ⟨Function.update σ.queue l [], Function.update σ.batch c (some cs), σ.drained⟩
  | nextEnd (σ : Fifo) (c : Pid) (hb : σ.batch c = some []) :
      Step σ (.nextDel c) (some (-1))
        ⟨σ.queue, Function.update σ.batch c none, Function.update σ.drained c true⟩
  | nextDel (σ : Fifo) (c d : Pid) (ds : List Pid) (hb : σ.batch c = some (d :: ds)) :
      Step σ (.nextDel c) none σ
  | nextReplace (σ : Fifo) (c d : Pid) (ds : List Pid) (hb : σ.batch c = some (d :: ds)) :
      Step σ (.nextReplace c) (some d)
        ⟨σ.queue, Function.update (Function.update σ.batch c none) d (some ds),
          Function.update σ.drained c true⟩

/-- The abstract content behind every sentinel. -/
def Fifo.contents (σ : Fifo) : Node → Option (List Node)
  | .head l => some ((σ.queue l).map .context)
  | .context c =>
    match σ.batch c with
    | some cs => some (cs.map .context)
    | none => if σ.drained c then some [] else none

/-- The heap holds the queues and batches, one ring each. -/
structure Refines (s : ListState) (σ : Fifo) : Prop where
  rings : RingFamily s.heap σ.contents (fun a => (s.context a).map .context)
  queue_pos : ∀ l, ∀ c ∈ σ.queue l, 0 < c
  batch_pos : ∀ d ds, σ.batch d = some ds → ∀ c ∈ ds, 0 < c

/-- The nodes of one completion list or batch: its sentinel and its members. -/
def Fifo.component (σ : Fifo) (a : Node) : List Node := a :: (σ.contents a).getD []

/-- The nodes an operation may write. -/
def Fifo.footprint (σ : Fifo) : ListOp → List Node
  | .add l c => .context c :: σ.component (.head l)
  | op => σ.component op.sentinel

theorem contents_add (σ : Fifo) (l : ListId) (c : Pid) (q : List Pid) (hb : σ.batch c = none) :
    Fifo.contents ⟨Function.update σ.queue l q, σ.batch, Function.update σ.drained c false⟩ =
      Function.update (Function.update σ.contents (.context c) none) (.head l)
        (some (q.map .context)) := by
  funext a
  cases a with
  | head m => by_cases hm : m = l <;> simp [Fifo.contents, hm]
  | context d =>
    by_cases hd : d = c
    · subst hd
      simp [Fifo.contents, hb]
    · simp [Fifo.contents, hd]

theorem contents_dequeue (σ : Fifo) (l : ListId) (c : Pid) (cs : List Pid) :
    Fifo.contents ⟨Function.update σ.queue l [], Function.update σ.batch c (some cs), σ.drained⟩ =
      Function.update (Function.update σ.contents (.head l) (some [])) (.context c)
        (some (cs.map .context)) := by
  funext a
  cases a with
  | head m => by_cases hm : m = l <;> simp [Fifo.contents, hm]
  | context d => by_cases hd : d = c <;> simp [Fifo.contents, hd]

theorem contents_nextEnd (σ : Fifo) (c : Pid) (hb : σ.batch c = some []) :
    Fifo.contents
      ⟨σ.queue, Function.update σ.batch c none, Function.update σ.drained c true⟩ = σ.contents := by
  funext a
  cases a with
  | head m => simp [Fifo.contents]
  | context d =>
    by_cases hd : d = c
    · subst hd
      simp [Fifo.contents, hb]
    · simp [Fifo.contents, hd]

theorem contents_next (σ : Fifo) (c d : Pid) (ds : List Pid) :
    Fifo.contents ⟨σ.queue, Function.update (Function.update σ.batch c none) d (some ds),
        Function.update σ.drained c true⟩ =
      Function.update (Function.update σ.contents (.context c) (some [])) (.context d)
        (some (ds.map .context)) := by
  funext a
  cases a with
  | head m => simp [Fifo.contents]
  | context e =>
    by_cases hd : e = d
    · simp [Fifo.contents, hd]
    · by_cases hc : e = c
      · subst hc
        simp [Fifo.contents, hd]
      · simp [Fifo.contents, hd, hc]

theorem contents_batch (σ : Fifo) (c : Pid) (cs : List Pid) (hb : σ.batch c = some cs) :
    σ.contents (.context c) = some (cs.map .context) := by
  simp [Fifo.contents, hb]

theorem unlinked_loose (σ : Fifo) (c : Pid) (hu : σ.Unlinked c) :
    Loose σ.contents (.context c) := by
  intro a l ha hm
  cases a with
  | head m =>
    simp only [Fifo.contents, Option.some.injEq] at ha
    subst ha
    simp only [List.mem_cons, reduceCtorEq, List.mem_map, Node.context.injEq, false_or] at hm
    obtain ⟨d, hd, rfl⟩ := hm
    exact absurd hd (hu.1 m)
  | context e =>
    cases hb : σ.batch e with
    | some ds =>
      rw [contents_batch σ e ds hb, Option.some.injEq] at ha
      subst ha
      simp only [List.mem_cons, Node.context.injEq, List.mem_map] at hm
      rcases hm with rfl | ⟨d, hd, rfl⟩
      · rw [hu.2.1] at hb
        cases hb
      · exact absurd hd (hu.2.2 e ds hb)
    | none =>
      simp only [Fifo.contents, hb] at ha
      split at ha
      · simp only [Option.some.injEq] at ha
        subst ha
        rw [List.mem_singleton] at hm
        exact ⟨hm.symm, rfl⟩
      · cases ha

section Simulation

variable {s : ListState} {σ : Fifo}

/-- The first half of a removal, on the list side of either caller. -/
theorem refines_unlinkFirst (hR : Refines s σ) (a : Node) (c : Pid) (cs : List Node)
    (ha : σ.contents a = some (.context c :: cs)) (hfree : s.context a = none) :
    ∃ s', s.unlinkFirst a = some s' ∧ Refines s' σ ∧
      ∀ y, y ∉ σ.component a → s'.heap y = s.heap y := by
  have hp : (s.context a).map Node.context = none := by rw [hfree]; rfl
  obtain ⟨h', hd, hf, hfr⟩ := hR.rings.listDel a (.context c) cs ha hp
  have hnext := (hR.rings.ring a _ ha hp).1.1.1
  refine ⟨⟨h', Function.update s.context a (some c)⟩, ?_, ⟨?_, hR.queue_pos, hR.batch_pos⟩, ?_⟩
  · simp only [ListState.unlinkFirst, hnext, hd, Option.bind_eq_bind, Option.bind_some,
      Option.pure_def]
  · convert hf using 1
    funext b
    by_cases hb : b = a <;> simp [hb]
  · intro y hy
    exact hfr y (by simpa [Fifo.component, ha] using hy)

/-- The second half of a removal: the new handle heads what is left, the old one is free. -/
theorem refines_replaceHead (hR : Refines s σ) (a : Node) (c : Pid) (cs : List Node)
    (ha : σ.contents a = some (.context c :: cs)) (hbusy : s.context a ≠ none) :
    ∃ s', s.replaceHead a = some (c, s') ∧
      RingFamily s'.heap (Function.update (Function.update σ.contents a (some []))
        (.context c) (some cs)) (fun b => (s'.context b).map .context) ∧
      ∀ y, y ∉ σ.component a → s'.heap y = s.heap y := by
  obtain ⟨d, hd⟩ := Option.ne_none_iff_exists'.mp hbusy
  have hp : (s.context a).map Node.context = some (.context d) := by rw [hd]; rfl
  obtain ⟨l, hl, -⟩ := hR.rings.taking a _ hp
  rw [ha, Option.some.injEq, List.cons.injEq, Node.context.injEq] at hl
  obtain rfl : c = d := hl.1
  obtain ⟨h', hr, hf, hfr⟩ := hR.rings.listReplaceInit a (.context c) cs ha hp
  refine ⟨⟨h', Function.update s.context a none⟩, ?_, ?_, ?_⟩
  · simp only [ListState.replaceHead, hd, hr, Option.bind_eq_bind, Option.bind_some,
      Option.pure_def]
  · convert hf using 1
    funext b
    by_cases hb : b = a <;> simp [hb]
  · intro y hy
    exact hfr y (by simpa [Fifo.component, ha] using hy)

/-- Every operation does on the heap what it does on the abstract queues, reports the same
context and writes only the nodes of its own list or batch. -/
theorem refines_step (hR : Refines s σ) (op : ListOp) (r : Ret) (σ' : Fifo)
    (hfree : s.Free op) (hstep : σ.Step op r σ') :
    ∃ s', s.step op = some (r, s') ∧ Refines s' σ' ∧
      ∀ y, y ∉ σ.footprint op → s'.heap y = s.heap y := by
  cases hstep with
  | add l c hu hc =>
    -- nobody is between the halves of a dequeue from this list
    have hp : (s.context (.head l)).map Node.context = none := by rw [hfree]; rfl
    obtain ⟨h', ha, hf, hfr⟩ := hR.rings.listAddTail (.head l) (.context c) _ rfl hp
      (unlinked_loose σ c hu) (by simp)
    refine ⟨⟨h', s.context⟩, ?_, ⟨?_, ?_, ?_⟩, ?_⟩
    · simp only [ListState.step, umsCompletionListAdd, complistAddHead, complistAddTail]
      simp [ha]
    · rw [contents_add σ l c _ hu.2.1]
      simpa using hf
    · intro m d hd
      by_cases hm : m = l
      · subst hm
        simp only [Function.update_self, List.mem_append, List.mem_singleton] at hd
        rcases hd with hd | rfl
        · exact hR.queue_pos m d hd
        · exact hc
      · simp only [Function.update_of_ne hm] at hd
        exact hR.queue_pos m d hd
    · exact hR.batch_pos
    · intro y hy
      simp only [Fifo.footprint, Fifo.component, Fifo.contents, Option.getD_some,
        List.mem_cons, not_or] at hy
      exact hfr y hy.1 (by simp only [List.mem_cons, not_or]; exact hy.2)
  | dequeueDel l c cs hq =>
    have ha : σ.contents (.head l) = some (.context c :: cs.map .context) := by
      simp [Fifo.contents, hq]
    -- the unlinked context still counts as the first of the queue
    obtain ⟨s', hs, hR', hfr⟩ := refines_unlinkFirst hR (.head l) c _ ha hfree
    exact ⟨s', by simp [ListState.step, hs], hR', hfr⟩
  | dequeueReplace l c cs hq =>
    have ha : σ.contents (.head l) = some (.context c :: cs.map .context) := by
      simp [Fifo.contents, hq]
    obtain ⟨s', hs, hf, hfr⟩ := refines_replaceHead hR (.head l) c _ ha hfree
    -- it becomes the handle of what was behind it, and the list is left empty
    have hpos := hR.queue_pos l
    refine ⟨s', by simp [ListState.step, hs], ⟨?_, ?_, ?_⟩, hfr⟩
    · rw [contents_dequeue]
      exact hf
    · intro m d hd
      by_cases hm : m = l
      · simp [hm] at hd
      · simp only [Function.update_of_ne hm] at hd
        exact hR.queue_pos m d hd
    · intro d ds hb e he
      by_cases hd : d = c
      · subst hd
        simp only [Function.update_self, Option.some.injEq] at hb
        subst hb
        exact hpos e (by rw [hq]; exact List.mem_cons_of_mem d he)
      · simp only [Function.update_of_ne hd] at hb
        exact hR.batch_pos d ds hb e he
  | nextEnd c hb =>
    have ha : σ.contents (.context c) = some [] := contents_batch σ c [] hb
    have hp : (s.context (.context c)).map Node.context = none := by rw [hfree]; rfl
    -- `list_empty` on the handle: the batch is used up, and nothing is written
    have he := (listEmpty_ring s.heap _ _ (hR.rings.ring _ _ ha hp)).mpr rfl
    refine ⟨s, by simp [ListState.step, he], ⟨?_, hR.queue_pos, ?_⟩, fun y _ => rfl⟩
    · rw [contents_nextEnd σ c hb]
      exact hR.rings
    · intro d ds hd
      by_cases hdc : d = c
      · simp [hdc] at hd
      · simp only [Function.update_of_ne hdc] at hd
        exact hR.batch_pos d ds hd
  | nextDel c d ds hb =>
    have ha := contents_batch σ c _ hb
    have hp : (s.context (.context c)).map Node.context = none := by rw [hfree]; rfl
    have he : listEmpty s.heap (.context c) = false := by
      rw [← Bool.not_eq_true, listEmpty_ring s.heap _ _ (hR.rings.ring _ _ ha hp)]
      exact List.cons_ne_nil _ _
    obtain ⟨s', hs, hR', hfr⟩ := refines_unlinkFirst hR (.context c) d _ ha hfree
    exact ⟨s', by simp [ListState.step, he, hs], hR', hfr⟩
  | nextReplace c d ds hb =>
    have ha := contents_batch σ c _ hb
    obtain ⟨s', hs, hf, hfr⟩ := refines_replaceHead hR (.context c) d _ ha hfree
    refine ⟨s', by simp [ListState.step, hs], ⟨?_, hR.queue_pos, ?_⟩, hfr⟩
    · rw [contents_next]
      exact hf
    · intro e es he x hx
      by_cases hed : e = d
      · subst hed
        simp only [Function.update_self, Option.some.injEq] at he
        subst he
        exact hR.batch_pos c _ hb x (List.mem_cons_of_mem e hx)
      · simp only [Function.update_of_ne hed] at he
        by_cases hec : e = c
        · simp [hec] at he
        · simp only [Function.update_of_ne hec] at he
          exact hR.batch_pos e es he x hx

end Simulation

/-- The heap and, beside it, the queues it stands for. -/
abbrev ListSystem := ListState × Fifo

/-- One operation by anybody, within the discipline: adds of contexts linked nowhere,
removals on the caller's own batch handle or under the lock. -/
def SysStep (x : ListSystem) (op : ListOp) (r : Ret) (y : ListSystem) : Prop :=
  x.1.Free op ∧ x.1.step op = some (r, y.1) ∧ x.2.Step op r y.2

/-- Any number of operations, none of them on sentinel `a`. -/
def Others (a : Node) : ListSystem → ListSystem → Prop :=
  Relation.ReflTransGen (fun x y => ∃ op r, op.sentinel ≠ a ∧ SysStep x op r y)

/-- From `x` on, and whatever the others do before and inside each call, draining the batch
with handle `c` returns `cs` in order and then the end marker. -/
def DrainsTo : Pid → List Pid → ListSystem → Prop
  | c, [], x => ∀ x', Others (.context c) x x' → ∃ z, SysStep x' (.nextDel c) (some (-1)) z ∧
      getNextUmsListItem 0 (-1) = 0 ∧ SelfLinked z.1.heap (.context c) ∧ z.1.heap = x'.1.heap
  | c, d :: ds, x => ∀ x', Others (.context c) x x' → ∃ y, SysStep x' (.nextDel c) none y ∧
      (∀ n, n ∉ (c :: d :: ds).map Node.context → y.1.heap n = x'.1.heap n) ∧
      ∀ y', Others (.context c) y y' → ∃ z, SysStep y' (.nextReplace c) (some d) z ∧
        getNextUmsListItem 0 d = d ∧ SelfLinked z.1.heap (.context c) ∧
        Ring z.1.heap (.context d) (ds.map .context) ∧
        (∀ n, n ∉ (c :: d :: ds).map Node.context → z.1.heap n = y'.1.heap n) ∧
        DrainsTo d ds z

/-- From `x` on, a dequeue of list `l` returns `c`, leaves the list empty and makes `c` the
handle of a batch that drains to `cs`. -/
def DequeuesTo (l : ListId) (c : Pid) (cs : List Pid) (x : ListSystem) : Prop :=
  ∃ y, SysStep x (.dequeueDel l) none y ∧
    ∀ y', Others (.head l) y y' → ∃ z, SysStep y' (.dequeueReplace l) (some c) z ∧
      SelfLinked z.1.heap (.head l) ∧ Ring z.1.heap (.context c) (cs.map .context) ∧
      z.2.queue l = [] ∧ DrainsTo c cs z

theorem sysStep_refines {x y : ListSystem} {op : ListOp} {r : Ret} (hR : Refines x.1 x.2)
    (hs : SysStep x op r y) : Refines y.1 y.2 := by
  obtain ⟨hfree, hc, ha⟩ := hs
  obtain ⟨s', hs', hR', -⟩ := refines_step hR op r y.2 hfree ha
  rw [hs', Option.some.injEq, Prod.mk.injEq] at hc
  exact hc.2 ▸ hR'

/-- The abstract step decides the concrete one. -/
theorem sysStep_exists {x : ListSystem} (hR : Refines x.1 x.2) (op : ListOp) (r : Ret) (σ' : Fifo)
    (hfree : x.1.Free op) (ha : x.2.Step op r σ') :
    ∃ s', SysStep x op r (s', σ') ∧ Refines s' σ' ∧
      ∀ n, n ∉ x.2.footprint op → s'.heap n = x.1.heap n := by
  obtain ⟨s', hs, hR', hfr⟩ := refines_step hR op r σ' hfree ha
  exact ⟨s', ⟨hfree, hs, ha⟩, hR', hfr⟩

/-- A step on one sentinel leaves the local variable of every other call alone. -/
theorem step_context_other {s s' : ListState} {op : ListOp} {r : Ret} {a : Node}
    (hne : op.sentinel ≠ a) (hs : s.step op = some (r, s')) : s'.context a = s.context a := by
  -- only the two halves of a removal write a local variable, that of their own sentinel
  have hdel (b : Node) (hb : b ≠ a) (t : ListState) (ht : s.unlinkFirst b = some t) :
      t.context a = s.context a := by
    unfold ListState.unlinkFirst at ht
    split at ht
    · simp only [Option.bind_eq_bind, Option.pure_def, Option.bind_eq_some_iff,
        Option.some.injEq] at ht
      obtain ⟨h, -, rfl⟩ := ht
      exact Function.update_of_ne hb.symm _ _
    · cases ht
  have hrep (b : Node) (hb : b ≠ a) (q : Pid × ListState) (hq : s.replaceHead b = some q) :
      q.2.context a = s.context a := by
    unfold ListState.replaceHead at hq
    simp only [Option.bind_eq_bind, Option.pure_def, Option.bind_eq_some_iff,
      Option.some.injEq] at hq
    obtain ⟨c, -, h, -, rfl⟩ := hq
    exact Function.update_of_ne hb.symm _ _
  cases op with
  | add l c =>
    simp only [ListState.step, Option.bind_eq_bind, Option.pure_def, Option.bind_eq_some_iff,
      Option.some.injEq, Prod.mk.injEq] at hs
    obtain ⟨h, -, -, rfl⟩ := hs
    rfl
  | dequeueDel l =>
    simp only [ListState.step, Option.bind_eq_bind, Option.pure_def, Option.bind_eq_some_iff,
      Option.some.injEq, Prod.mk.injEq] at hs
    obtain ⟨t, ht, -, rfl⟩ := hs
    exact hdel (.head l) hne t ht
  | dequeueReplace l =>
    simp only [ListState.step, Option.bind_eq_bind, Option.pure_def, Option.bind_eq_some_iff,
      Option.some.injEq, Prod.mk.injEq] at hs
    obtain ⟨q, hq, -, rfl⟩ := hs
    exact hrep (.head l) hne q hq
  | nextDel c =>
    simp only [ListState.step] at hs
    split at hs
    · simp only [Option.some.injEq, Prod.mk.injEq] at hs
      rw [hs.2]
    · simp only [Option.bind_eq_bind, Option.pure_def, Option.bind_eq_some_iff,
        Option.some.injEq, Prod.mk.injEq] at hs
      obtain ⟨t, ht, -, rfl⟩ := hs
      exact hdel (.context c) hne t ht
  | nextReplace c =>
    simp only [ListState.step, Option.bind_eq_bind, Option.pure_def, Option.bind_eq_some_iff,
      Option.some.injEq, Prod.mk.injEq] at hs
    obtain ⟨q, hq, -, rfl⟩ := hs
    exact hrep (.context c) hne q hq

/-- A context waiting in a list or batch is no batch handle. -/
theorem member_not_handle {s : ListState} {σ : Fifo} (hR : Refines s σ) (a : Node) (c d : Pid)
    (cs ds : List Pid) (ha : σ.contents a = some (ds.map .context)) (hd : d ∈ ds)
    (hb : σ.batch c = some cs) : c ≠ d := by
  rintro rfl
  have hn := hR.rings.member_not_sentinel a (.context c) _ ha (List.mem_map_of_mem hd)
  rw [contents_batch σ c cs hb] at hn
  cases hn

/-- A batch belongs to whoever drains it: the others change neither its content nor the call
in progress on it. -/
theorem others_keep_batch {x y : ListSystem} (c : Pid) (cs : List Pid) (hR : Refines x.1 x.2)
    (hb : x.2.batch c = some cs) (ho : Others (.context c) x y) :
    Refines y.1 y.2 ∧ y.2.batch c = some cs ∧
      y.1.context (.context c) = x.1.context (.context c) := by
  induction ho with
  | refl => exact ⟨hR, hb, rfl⟩
  | tail _ hstep ih =>
    rename_i u v _
    obtain ⟨hRu, hbu, hcu⟩ := ih
    obtain ⟨op, r, hne, hs⟩ := hstep
    refine ⟨sysStep_refines hRu hs, ?_, (step_context_other hne hs.2.1).trans hcu⟩
    have ha := hs.2.2
    generalize v.2 = σ' at ha
    cases ha with
    | add l d hu hd => exact hbu
    | dequeueDel l d ds hq => exact hbu
    | dequeueReplace l d ds hq =>
      have hcd := member_not_handle hRu (.head l) c d cs _ rfl (hq ▸ List.mem_cons_self) hbu
      simpa only [Function.update_of_ne hcd] using hbu
    | nextEnd d hd =>
      have hcd : c ≠ d := fun he => hne (by rw [he]; rfl)
      simpa only [Function.update_of_ne hcd] using hbu
    | nextDel d e es hd => exact hbu
    | nextReplace d e es hd =>
      have hcd : c ≠ d := fun he => hne (by rw [he]; rfl)
      have hce := member_not_handle hRu (.context d) c e cs _ (contents_batch _ d _ hd)
        List.mem_cons_self hbu
      simpa only [Function.update_of_ne hce, Function.update_of_ne hcd] using hbu

/-- The same for a completion list whose lock is held. -/
theorem others_keep_queue {x y : ListSystem} (l : ListId) (hR : Refines x.1 x.2)
    (ho : Others (.head l) x y) :
    Refines y.1 y.2 ∧ y.2.queue l = x.2.queue l ∧
      y.1.context (.head l) = x.1.context (.head l) := by
  induction ho with
  | refl => exact ⟨hR, rfl, rfl⟩
  | tail _ hstep ih =>
    rename_i u v _
    obtain ⟨hRu, hqu, hcu⟩ := ih
    obtain ⟨op, r, hne, hs⟩ := hstep
    refine ⟨sysStep_refines hRu hs, ?_, (step_context_other hne hs.2.1).trans hcu⟩
    have ha := hs.2.2
    generalize v.2 = σ' at ha
    cases ha with
    | add m d hu hd =>
      have hlm : l ≠ m := fun he => hne (by rw [he]; rfl)
      simpa only [Function.update_of_ne hlm] using hqu
    | dequeueReplace m d ds hq =>
      have hlm : l ≠ m := fun he => hne (by rw [he]; rfl)
      simpa only [Function.update_of_ne hlm] using hqu
    | _ => exact hqu

theorem unlinkFirst_context (s t : ListState) (a : Node) (h : s.unlinkFirst a = some t) :
    t.context a ≠ none := by
  unfold ListState.unlinkFirst at h
  split at h
  · simp only [Option.bind_eq_bind, Option.pure_def, Option.bind_eq_some_iff,
      Option.some.injEq] at h
    obtain ⟨h', -, rfl⟩ := h
    simp
  · cases h

theorem nextDel_context (s t : ListState) (c : Pid) (h : s.step (.nextDel c) = some (none, t)) :
    t.context (.context c) ≠ none := by
  simp only [ListState.step] at h
  split at h
  · simp at h
  · simp only [Option.bind_eq_bind, Option.pure_def, Option.bind_eq_some_iff,
      Option.some.injEq, Prod.mk.injEq] at h
    obtain ⟨u, hu, -, rfl⟩ := h
    exact unlinkFirst_context s u _ hu

theorem dequeueDel_context (s t : ListState) (l : ListId)
    (h : s.step (.dequeueDel l) = some (none, t)) : t.context (.head l) ≠ none := by
  simp only [ListState.step, Option.bind_eq_bind, Option.pure_def, Option.bind_eq_some_iff,
    Option.some.injEq, Prod.mk.injEq] at h
  obtain ⟨u, hu, -, rfl⟩ := h
  exact unlinkFirst_context s u _ hu

theorem replaceHead_context (s : ListState) (a b : Node) (q : Pid × ListState)
    (h : s.replaceHead a = some q) (hb : b = a ∨ s.context b = none) : q.2.context b = none := by
  unfold ListState.replaceHead at h
  simp only [Option.bind_eq_bind, Option.pure_def, Option.bind_eq_some_iff,
    Option.some.injEq] at h
  obtain ⟨c, -, h', -, rfl⟩ := h
  by_cases hba : b = a
  · simp [hba]
  · simpa only [Function.update_of_ne hba] using hb.resolve_left hba

/-- A node that is no sentinel has no call at work on it. -/
theorem context_none_of_member {s : ListState} {σ : Fifo} (hR : Refines s σ) (a : Node) (d : Pid)
    (ds : List Pid) (ha : σ.contents a = some (ds.map .context)) (hd : d ∈ ds) :
    s.context (.context d) = none := by
  have hn := hR.rings.member_not_sentinel a (.context d) _ ha (List.mem_map_of_mem hd)
  exact Option.map_eq_none_iff.mp (hR.rings.pending_none (.context d) hn)

theorem refines_ring {s : ListState} {σ : Fifo} (hR : Refines s σ) (a : Node) (l : List Node)
    (ha : σ.contents a = some l) (hfree : s.context a = none) : Ring s.heap a l :=
  hR.rings.ring a l ha (by rw [hfree]; rfl)

/-- The induction is on what remains of the batch; `others_keep_batch` carries the batch over
the steps of the others, before the call and between its two halves. -/
theorem drains_of_batch (c : Pid) (cs : List Pid) (x : ListSystem) (hR : Refines x.1 x.2)
    (hb : x.2.batch c = some cs) (hfree : x.1.context (.context c) = none) : DrainsTo c cs x := by
  induction cs generalizing c x with
  | nil =>
    intro x' ho
    obtain ⟨hR', hb', hc'⟩ := others_keep_batch c [] hR hb ho
    have hring := refines_ring hR' _ _ (contents_batch _ c [] hb') (hc'.trans hfree)
    have hself := (ring_nil_iff _ _).mp hring
    obtain ⟨s', hs, -, hfr⟩ := sysStep_exists hR' (.nextDel c) _ _ (hc'.trans hfree)
      (Fifo.Step.nextEnd _ c hb')
    have he := (listEmpty_ring _ _ _ hring).mpr rfl
    have hs' : s' = x'.1 := by
      have hstep := hs.2.1
      simp only [ListState.step, he, if_true, Option.some.injEq, Prod.mk.injEq] at hstep
      exact hstep.2.symm
    subst hs'
    exact ⟨_, hs, by decide, hself, rfl⟩
  | cons d ds ih =>
    intro x' ho
    obtain ⟨hR', hb', hc'⟩ := others_keep_batch c _ hR hb ho
    obtain ⟨y, hy, hRy, hfy⟩ := sysStep_exists hR' (.nextDel c) _ _ (hc'.trans hfree)
      (Fifo.Step.nextDel _ c d ds hb')
    have hcomp (σ : Fifo) (hσ : σ.batch c = some (d :: ds)) :
        σ.component (.context c) = (c :: d :: ds).map Node.context := by
      simp [Fifo.component, contents_batch σ c _ hσ]
    refine ⟨_, hy, fun n hn => hfy n (by rw [← hcomp _ hb'] at hn; exact hn), ?_⟩
    intro y' hoy
    obtain ⟨hRy', hby', hcy'⟩ := others_keep_batch (x := (y, x'.2)) c _ hRy hb' hoy
    have hbusy : y'.1.context (.context c) ≠ none := by
      rw [hcy']
      exact nextDel_context _ _ c hy.2.1
    obtain ⟨z, hz, hRz, hfz⟩ := sysStep_exists hRy' (.nextReplace c) _ _ hbusy
      (Fifo.Step.nextReplace _ c d ds hby')
    have hcont := contents_batch _ c _ hby'
    have hcd := member_not_handle hRy' (.context c) c d _ _ hcont List.mem_cons_self hby'
    -- after the second half neither the old nor the new handle has a call at work on it
    have hnone (b : Node) (hb : b = .context c ∨ y'.1.context b = none) : z.context b = none := by
      have hstep := hz.2.1
      simp only [ListState.step, Option.bind_eq_bind, Option.pure_def, Option.bind_eq_some_iff,
        Option.some.injEq, Prod.mk.injEq] at hstep
      obtain ⟨q, hq, -, rfl⟩ := hstep
      exact replaceHead_context _ _ b q hq hb
    have hd0 := context_none_of_member hRy' (.context c) d _ hcont List.mem_cons_self
    have hpos := hRy'.batch_pos c _ hby' d List.mem_cons_self
    have hself : SelfLinked z.heap (.context c) := by
      rw [← ring_nil_iff]
      refine refines_ring hRz (.context c) [] ?_ (hnone _ (Or.inl rfl))
      simp [Fifo.contents, Function.update_of_ne hcd]
    have hbd : Function.update (Function.update y'.2.batch c none) d (some ds) d = some ds :=
      Function.update_self d _ _
    refine ⟨_, hz, ?_, hself, ?_, fun n hn => hfz n (by rw [← hcomp _ hby'] at hn; exact hn), ?_⟩
    · have hd1 : d ≠ -1 := by
        rintro rfl
        exact absurd hpos (by decide)
      simp [getNextUmsListItem, hd1]
    · exact refines_ring hRz (.context d) _ (contents_batch _ d ds hbd) (hnone _ (Or.inr hd0))
    · exact ih d _ hRz hbd (hnone _ (Or.inr hd0))

theorem dequeues_of_queue (l : ListId) (c : Pid) (cs : List Pid) (x : ListSystem)
    (hR : Refines x.1 x.2) (hq : x.2.queue l = c :: cs) (hfree : x.1.context (.head l) = none) :
    DequeuesTo l c cs x := by
  obtain ⟨y, hy, hRy, -⟩ := sysStep_exists hR (.dequeueDel l) _ _ hfree
    (Fifo.Step.dequeueDel _ l c cs hq)
  refine ⟨_, hy, ?_⟩
  intro y' ho
  obtain ⟨hRy', hqy', hcy'⟩ := others_keep_queue l hRy ho
  have hbusy : y'.1.context (.head l) ≠ none := by
    rw [hcy']
    exact dequeueDel_context _ _ l hy.2.1
  have hq' : y'.2.queue l = c :: cs := hqy'.trans hq
  obtain ⟨z, hz, hRz, -⟩ := sysStep_exists hRy' (.dequeueReplace l) _ _ hbusy
    (Fifo.Step.dequeueReplace _ l c cs hq')
  have hnone (b : Node) (hb : b = .head l ∨ y'.1.context b = none) : z.context b = none := by
    have hstep := hz.2.1
    simp only [ListState.step, Option.bind_eq_bind, Option.pure_def, Option.bind_eq_some_iff,
      Option.some.injEq, Prod.mk.injEq] at hstep
    obtain ⟨q, hqq, -, rfl⟩ := hstep
    exact replaceHead_context _ _ b q hqq hb
  have hc0 := context_none_of_member hRy' (.head l) c _ rfl (hq' ▸ List.mem_cons_self)
  have hbc : Function.update y'.2.batch c (some cs) c = some cs := Function.update_self c _ _
  refine ⟨_, hz, ?_, ?_, Function.update_self l _ _, ?_⟩
  · rw [← ring_nil_iff]
    refine refines_ring hRz (.head l) [] ?_ (hnone _ (Or.inl rfl))
    simp [Fifo.contents]
  · exact refines_ring hRz (.context c) _ (contents_batch _ c cs hbc) (hnone _ (Or.inr hc0))
  · exact drains_of_batch c cs _ hRz hbc (hnone _ (Or.inr hc0))

/-- Heads self-linked, no call in progress. -/
def ListState.init : ListState := ⟨fun a => ⟨.node a, .node a⟩, fun _ => none⟩

theorem refines_init : Refines ListState.init Fifo.init := by
  refine ⟨⟨?_, ?_, ?_, ?_⟩, ?_, ?_⟩
  · intro a l ha _
    cases a with
    | head m =>
      simp only [Fifo.contents, Fifo.init, List.map_nil, Option.some.injEq] at ha
      subst ha
      exact (ring_nil_iff _ _).mpr rfl
    | context c => simp [Fifo.contents, Fifo.init] at ha
  · intro a x hx
    simp [ListState.init] at hx
  · intro a l ha
    cases a with
    | head m =>
      simp only [Fifo.contents, Fifo.init, List.map_nil, Option.some.injEq] at ha
      simp [← ha]
    | context c => simp [Fifo.contents, Fifo.init] at ha
  · intro a b l m x ha hb hxa hxb
    cases a with
    | head i =>
      cases b with
      | head j =>
        simp only [Fifo.contents, Fifo.init, List.map_nil, Option.some.injEq] at ha hb
        subst ha
        subst hb
        rw [List.mem_singleton] at hxa hxb
        exact hxa.symm.trans hxb
      | context c => simp [Fifo.contents, Fifo.init] at hb
    | context c => simp [Fifo.contents, Fifo.init] at ha
  · intro l c hc
    simp [Fifo.init] at hc
  · intro d ds hd
    simp [Fifo.init] at hd

/-- The two halves in a row are the function of the source. -/
theorem doDequeue_eq_steps (s : ListState) (l : ListId) (c : Pid) (h : Heap Node)
    (hd : doDequeueUmsComplistContext s.heap l = some (.context c, h)) :
    (s.step (.dequeueDel l)).bind (fun r => r.2.step (.dequeueReplace l)) =
      some (some c, ⟨h, Function.update s.context (.head l) none⟩) := by
  unfold doDequeueUmsComplistContext takeFirst at hd
  split at hd
  · rename_i x hx
    simp only [Option.bind_eq_bind, Option.pure_def, Option.bind_eq_some_iff, Option.some.injEq,
      Prod.mk.injEq] at hd
    obtain ⟨h₁, hd₁, h₂, hd₂, rfl, rfl⟩ := hd
    simp [ListState.step, ListState.unlinkFirst, ListState.replaceHead, hx, hd₁, hd₂]
  · cases hd

theorem nextContext_eq_steps (s : ListState) (c d : Pid) (h : Heap Node)
    (hd : umsComplistNextContext s.heap c = some (some (.context d), h)) :
    (s.step (.nextDel c)).bind (fun r => r.2.step (.nextReplace c)) =
      some (some d, ⟨h, Function.update s.context (.context c) none⟩) := by
  unfold umsComplistNextContext at hd
  split at hd
  · simp at hd
  · rename_i he
    rw [Option.map_eq_some_iff] at hd
    obtain ⟨⟨x, h'⟩, ht, hxh⟩ := hd
    simp only [Prod.mk.injEq, Option.some.injEq] at hxh
    obtain ⟨rfl, rfl⟩ := hxh
    unfold takeFirst at ht
    split at ht
    · rename_i y hy
      simp only [Option.bind_eq_bind, Option.pure_def, Option.bind_eq_some_iff,
        Option.some.injEq, Prod.mk.injEq] at ht
      obtain ⟨h₁, hd₁, h₂, hd₂, rfl, rfl⟩ := ht
      simp [ListState.step, ListState.unlinkFirst, ListState.replaceHead, he, hy, hd₁, hd₂]
    · cases ht

/-- The pointer-level completion lists refine FIFO queues with exclusively owned batches.
The abstract state follows every operation, each operation writes only its own list or
batch, a free list is the ring of its queue, a context that its batch has moved past is
self-linked until it is inserted again, and a dequeue returns the head of the queue and
drains to the rest of it, whatever the others do in between. `umsComplistNextContext` returns the
next member of a batch, or its end and the heap as it is. -/
theorem complist_refines_fifo :
    Refines ListState.init Fifo.init ∧
    ∀ s σ, Refines s σ →
      (∀ op r σ', s.Free op → σ.Step op r σ' → ∃ s', s.step op = some (r, s') ∧
        Refines s' σ' ∧ ∀ n, n ∉ σ.footprint op → s'.heap n = s.heap n) ∧
      (∀ l, s.context (.head l) = none → Ring s.heap (.head l) ((σ.queue l).map .context)) ∧
      (∀ c, σ.batch c = none → σ.drained c = true → SelfLinked s.heap (.context c)) ∧
      (∀ l c cs, σ.queue l = c :: cs → s.context (.head l) = none →
        (∃ h, doDequeueUmsComplistContext s.heap l = some (.context c, h) ∧
          SelfLinked h (.head l) ∧ Ring h (.context c) (cs.map .context)) ∧
        DequeuesTo l c cs (s, σ)) ∧
      ∀ c, s.context (.context c) = none →
        (σ.batch c = some [] → umsComplistNextContext s.heap c = some (none, s.heap)) ∧
        ∀ d ds, σ.batch c = some (d :: ds) →
          ∃ h, umsComplistNextContext s.heap c = some (some (.context d), h) ∧
            SelfLinked h (.context c) ∧ Ring h (.context d) (ds.map .context) := by
  refine ⟨refines_init, fun s σ hR => ⟨fun op r σ' => refines_step hR op r σ', ?_, ?_, ?_, ?_⟩⟩
  · intro l hl
    exact refines_ring hR (.head l) _ rfl hl
  · intro c hb hd
    have hc : σ.contents (.context c) = some [] := by simp [Fifo.contents, hb, hd]
    have hp : s.context (.context c) = none := by
      cases hp : s.context (.context c) with
      | none => rfl
      | some d =>
        obtain ⟨l, hl, -⟩ := hR.rings.taking (.context c) (.context d) (by rw [hp]; rfl)
        rw [hc] at hl
        cases hl
    exact (ring_nil_iff _ _).mp (refines_ring hR _ _ hc hp)
  · intro l c cs hq hfree
    refine ⟨?_, dequeues_of_queue l c cs (s, σ) hR hq hfree⟩
    have ha : σ.contents (.head l) = some (.context c :: cs.map .context) := by
      simp [Fifo.contents, hq]
    have hp : (s.context (.head l)).map Node.context = none := by rw [hfree]; rfl
    obtain ⟨h, hh, hf, -⟩ := hR.rings.takeFirst (.head l) (.context c) _ ha hp
    have hpc := context_none_of_member hR (.head l) c _ rfl (hq ▸ List.mem_cons_self)
    refine ⟨h, hh, ?_, ?_⟩
    · exact (ring_nil_iff _ _).mp (hf.ring (.head l) [] (by simp) hp)
    · exact hf.ring (.context c) _ (by simp) (by rw [hpc]; rfl)
  · intro c hfree
    refine ⟨fun hb => ?_, fun d ds hb => ?_⟩
    · have hring := refines_ring hR (.context c) _ (contents_batch σ c [] hb) hfree
      simp [umsComplistNextContext, (listEmpty_ring _ _ _ hring).mpr rfl]
    · have ha := contents_batch σ c _ hb
      have hp : (s.context (.context c)).map Node.context = none := by rw [hfree]; rfl
      have hne : listEmpty s.heap (.context c) = false := by
        rw [← Bool.not_eq_true, listEmpty_ring _ _ _ (refines_ring hR (.context c) _ ha hfree)]
        simp
      obtain ⟨h, hh, hf, -⟩ := hR.rings.takeFirst (.context c) (.context d) _ ha hp
      have hpd := context_none_of_member hR (.context c) d _ ha (by simp)
      have hcd : Node.context c ≠ .context d := fun he =>
        (List.nodup_cons.mp (hR.rings.nodup _ _ ha)).1 (by simp [he])
      refine ⟨h, by simp [umsComplistNextContext, hne, hh], ?_, ?_⟩
      · refine (ring_nil_iff _ _).mp (hf.ring (.context c) [] ?_ hp)
        rw [Function.update_of_ne hcd, Function.update_self]
      · exact hf.ring (.context d) _ (Function.update_self _ _ _) (by rw [hpd]; rfl)

end LinuxUms
