import LinuxUms.Effects

/-! Iterating batches. Every dequeue is given a number, every worker that it takes off a list
remembers that number, and whether its pid has been returned to user space since; both are lost
when the worker goes back to a list or ends. -/
namespace LinuxUms

open KernelList

/-- What `ums_complist_next_context` answers. `head` is a list head that it took for the node
of a context, and `fault` a pointer that leads nowhere. -/
inductive NextResult where
  | esrch
  | finished
  | context (d : Pid)
  | head (l : ListId)
  | fault
  deriving DecidableEq

def nextResult (s : IoState) (c : Pid) : NextResult :=
  if (s.worker c).isNone then .esrch
  else
    match LinuxUms.umsComplistNextContext s.heap c with
    | some (none, _) => .finished
    | some (some (.context d), _) => .context d
    | some (some (.head l), _) => .head l
    | none => .fault

structure Iter where
  io : IoState
  batch : Pid → Option ℕ
  returned : Pid → Bool
  count : ℕ

namespace Iter

def init : Iter := ⟨.init, fun _ => none, fun _ => false, 0⟩

/-- The record of a worker that goes back to a list, or ends. -/
def forget (s : Iter) (t : Pid) (io : IoState) : Iter :=
  { s with
    io := io
    batch := Function.update s.batch t none
    returned := Function.update s.returned t false }

/-- The record of a dequeue that takes `q` off a list. -/
def dequeue (s : Iter) (q : List Node) (io : IoState) : Iter :=
  { io := io
    batch := fun c => if .context c ∈ q then some s.count else s.batch c
    returned := fun c => if .context c ∈ q then q.head? = some (.context c) else s.returned c
    count := s.count + 1 }

def record (s : Iter) (io : IoState) : IoAct → Iter
  | .dqcontext t l true =>
    if (s.io.list l).isSome ∧ (s.io.scheduler t).isSome then
      s.dequeue ((s.io.rings (.head l)).getD []) io
    else { s with io := io }
  | .nextContext _ c =>
    match nextResult s.io c with
    | .context d => { s with io := io, returned := Function.update s.returned d true }
    | _ => { s with io := io }
  | .enterWorker t _ _ _ =>
    if (s.io.worker t).isNone then s.forget t io else { s with io := io }
  | .yield t _ | .exit t =>
    if (s.io.worker t).isSome then s.forget t io else { s with io := io }
  | _ => { s with io := io }

def step (s : Iter) (act : IoAct) : Option Iter :=
  (s.io.step act).map (fun io => s.record io act)

def move (s : Iter) : IoMove → Option Iter
  | .call act => s.step act
  | .signal t => some { s with io := s.io.signal t }

end Iter

/-- How the records go with the rings `r`. Only rings with members matter. -/
structure BatchOk (r : Node → Option (List Node)) (batch : Pid → Option ℕ)
    (returned : Pid → Bool) (count : ℕ) : Prop where
  member : ∀ c d k, r (.context c) = some k → .context d ∈ k →
    (∃ b, batch c = some b ∧ batch d = some b) ∧ returned c = true ∧ returned d = false
  pending : ∀ d b, batch d = some b → returned d = false →
    ∃ c k, r (.context c) = some k ∧ .context d ∈ k
  handle : ∀ c c' d d' k k', r (.context c) = some k → .context d ∈ k →
    r (.context c') = some k' → .context d' ∈ k' → batch c = batch c' → c = c'
  fresh : ∀ c b, batch c = some b → b < count
  queue : ∀ l q c, r (.head l) = some q → .context c ∈ q → batch c = none

namespace BatchOk

variable {r r' : Node → Option (List Node)} {batch : Pid → Option ℕ} {returned : Pid → Bool}
  {count : ℕ} {t : Pid} {l : ListId}

/-- The lists change, and the rings of contexts that have members do not. -/
theorem setHeads (ok : BatchOk r batch returned count)
    (hctx : ∀ c d k, .context d ∈ k → (r' (.context c) = some k ↔ r (.context c) = some k))
    (hheads : ∀ l q c, r' (.head l) = some q → .context c ∈ q → batch c = none) :
    BatchOk r' batch returned count := by
  refine ⟨?_, ?_, ?_, ok.fresh, hheads⟩
  · exact fun c d k hk hd => ok.member c d k ((hctx c d k hd).mp hk) hd
  · intro d b hb hr
    obtain ⟨c, k, hk, hd⟩ := ok.pending d b hb hr
    exact ⟨c, k, (hctx c d k hd).mpr hk, hd⟩
  · intro c c' d d' k k' hk hd hk' hd'
    exact ok.handle c c' d d' k k' ((hctx c d k hd).mp hk) hd ((hctx c' d' k' hd').mp hk') hd'

/-- The record of a context that is linked nowhere is lost. -/
theorem forget (ok : BatchOk r batch returned count) (ht : Loose r (.context t)) :
    BatchOk r (Function.update batch t none) (Function.update returned t false) count := by
  -- `t` is neither a member nor a sentinel with members
  have hout (c d : Pid) (k : List Node) (hk : r (.context c) = some k) (hd : .context d ∈ k) :
      c ≠ t ∧ d ≠ t := by
    constructor <;> rintro rfl
    · rw [(ht _ k hk List.mem_cons_self).2] at hd
      cases hd
    · rw [(ht _ k hk (List.mem_cons_of_mem _ hd)).2] at hd
      cases hd
  refine ⟨?_, ?_, ?_, ?_, ?_⟩
  · intro c d k hk hd
    obtain ⟨hc, hdt⟩ := hout c d k hk hd
    simpa only [Function.update_of_ne hc, Function.update_of_ne hdt] using ok.member c d k hk hd
  · intro d b hb hr
    obtain ⟨hd, hb⟩ := of_update_none hb
    rw [Function.update_of_ne hd] at hr
    exact ok.pending d b hb hr
  · intro c c' d d' k k' hk hd hk' hd' he
    rw [Function.update_of_ne (hout c d k hk hd).1,
      Function.update_of_ne (hout c' d' k' hk' hd').1] at he
    exact ok.handle c c' d d' k k' hk hd hk' hd' he
  · exact fun c b hb => ok.fresh c b (of_update_none hb).2
  · intro l q c hq hc
    by_cases hct : c = t
    · simp [hct]
    · rw [Function.update_of_ne hct]
      exact ok.queue l q c hq hc

/-- A context that was linked nowhere goes to the tail of a list. -/
theorem requeue (ok : BatchOk r batch returned count) (ht : Loose r (.context t)) (q : List Node)
    (hq : r (.head l) = some q) :
    BatchOk (Function.update (Function.update r (.context t) none) (.head l)
      (some (q ++ [.context t]))) (Function.update batch t none) (Function.update returned t false)
      count := by
  have ok' := ok.forget ht
  refine ok'.setHeads ?_ ?_
  · intro c d k hd
    rw [Function.update_of_ne (by simp)]
    by_cases hc : c = t
    · subst hc
      simp only [Function.update_self, reduceCtorEq, false_iff]
      intro hk
      rw [(ht _ k hk List.mem_cons_self).2] at hd
      cases hd
    · rw [Function.update_of_ne (by simpa using hc)]
  · intro m k c hk hc
    rcases update_none_some_cases hk with ⟨-, rfl⟩ | ⟨-, -, hk⟩
    · rcases List.mem_append.mp hc with hc | hc
      · exact ok'.queue l q c hq hc
      · obtain rfl : c = t := by simpa using hc
        exact Function.update_self _ _ _
    · exact ok'.queue m k c hk hc

/-- A whole list becomes a batch with a number of its own. -/
theorem dequeue {h : Heap Node} {p : Node → Option Node} (ok : BatchOk r batch returned count)
    (hf : RingFamily h r p) (c : Pid) (m : List Node)
    (hq : r (.head l) = some (.context c :: m)) :
    BatchOk (Function.update (Function.update r (.head l) (some [])) (.context c) (some m))
      (fun d => if .context d ∈ Node.context c :: m then some count else batch d)
      (fun d => if .context d ∈ Node.context c :: m then
        decide ((Node.context c :: m).head? = some (.context d)) else returned d) (count + 1) := by
  have hcm : .context c ∉ m := (List.nodup_cons.mp (List.nodup_cons.mp (hf.nodup _ _ hq)).2).1
  -- the other rings of contexts, with their sentinels, are apart from the list
  have hother (a d : Pid) (k : List Node) (hk : r (.context a) = some k) (hd : .context d ∈ k) :
      .context a ∉ Node.context c :: m ∧ .context d ∉ Node.context c :: m := by
    constructor <;> intro hm
    · rw [hf.member_not_sentinel _ _ _ hq hm] at hk
      cases hk
    · cases hf.disjoint _ _ _ _ _ hq hk (List.mem_cons_of_mem _ hm) (List.mem_cons_of_mem _ hd)
  have hcases (a d : Pid) (k : List Node) (hd : .context d ∈ k)
      (hk : Function.update (Function.update r (.head l) (some [])) (.context c) (some m)
        (.context a) = some k) : (a = c ∧ k = m) ∨ r (.context a) = some k := by
    rcases update_some_some_cases hk with ⟨ha, rfl⟩ | ⟨ha, -⟩ | ⟨-, -, hk⟩
    · exact Or.inl ⟨Node.context.inj ha, rfl⟩
    · cases ha
    · exact Or.inr hk
  refine ⟨?_, ?_, ?_, ?_, ?_⟩
  · intro a d k hk hd
    rcases hcases a d k hd hk with ⟨rfl, rfl⟩ | hk
    · have had : a ≠ d := by
        rintro rfl
        exact hcm hd
      simp [hd, had]
    · obtain ⟨ha, hdm⟩ := hother a d k hk hd
      simp only [ha, hdm, if_false]
      exact ok.member a d k hk hd
  · intro d b hb hr
    by_cases hd : .context d ∈ Node.context c :: m
    · rcases List.mem_cons.mp hd with he | hm
      · simp [Node.context.inj he] at hr
      · exact ⟨c, m, Function.update_self _ _ _, hm⟩
    · simp only [hd, if_false] at hb hr
      obtain ⟨a, k, hk, hdk⟩ := ok.pending d b hb hr
      refine ⟨a, k, ?_, hdk⟩
      have ha : a ≠ c := by
        rintro rfl
        exact (hother a d k hk hdk).1 List.mem_cons_self
      rw [Function.update_of_ne (by simpa using ha), Function.update_of_ne (by simp)]
      exact hk
  · intro a a' d d' k k' hk hd hk' hd' he
    rcases hcases a d k hd hk with ⟨rfl, rfl⟩ | ho <;>
      rcases hcases a' d' k' hd' hk' with ⟨rfl, rfl⟩ | ho'
    · rfl
    · obtain ⟨⟨b, hb, -⟩, -⟩ := ok.member a' d' k' ho' hd'
      simp only [List.mem_cons_self, if_true, (hother a' d' k' ho' hd').1, if_false, hb] at he
      have hlt := ok.fresh a' b hb
      rw [Option.some.injEq] at he
      omega
    · obtain ⟨⟨b, hb, -⟩, -⟩ := ok.member a d k ho hd
      simp only [List.mem_cons_self, if_true, (hother a d k ho hd).1, if_false, hb] at he
      have hlt := ok.fresh a b hb
      rw [Option.some.injEq] at he
      omega
    · simp only [(hother a d k ho hd).1, (hother a' d' k' ho' hd').1, if_false] at he
      exact ok.handle a a' d d' k k' ho hd ho' hd' he
  · intro d b hb
    split at hb
    · rw [← Option.some.inj hb]
      exact Nat.lt_succ_self count
    · exact Nat.lt_succ_of_lt (ok.fresh d b hb)
  · intro l' q d hq' hd
    rcases update_some_some_cases hq' with ⟨ha, -⟩ | ⟨-, rfl⟩ | ⟨-, hne, hq'⟩
    · cases ha
    · cases hd
    · have hdm : .context d ∉ Node.context c :: m := fun hm => hne
        (hf.disjoint _ _ _ _ _ hq' hq (List.mem_cons_of_mem _ hd) (List.mem_cons_of_mem _ hm))
      simp only [hdm, if_false]
      exact ok.queue l' q d hq' hd

/-- The first member of a batch becomes its handle. -/
theorem next {h : Heap Node} {p : Node → Option Node} (ok : BatchOk r batch returned count)
    (hf : RingFamily h r p) (c d : Pid) (m : List Node)
    (hk : r (.context c) = some (.context d :: m)) :
    BatchOk (Function.update (Function.update r (.context c) (some [])) (.context d) (some m))
      batch (Function.update returned d true) count := by
  have hdm : .context d ∉ m := (List.nodup_cons.mp (List.nodup_cons.mp (hf.nodup _ _ hk)).2).1
  have hnone := hf.member_not_sentinel _ _ _ hk List.mem_cons_self
  obtain ⟨⟨b, hcb, hdb⟩, -, -⟩ := ok.member c d _ hk List.mem_cons_self
  -- after the call a member is behind the new handle, or behind one that was not touched
  have hcases (a e : Pid) (k : List Node) (he : .context e ∈ k)
      (hk' : Function.update (Function.update r (.context c) (some [])) (.context d) (some m)
        (.context a) = some k) :
      (a = d ∧ k = m) ∨ (a ≠ c ∧ a ≠ d ∧ e ≠ d ∧ r (.context a) = some k) := by
    rcases update_some_some_cases hk' with ⟨ha, rfl⟩ | ⟨-, rfl⟩ | ⟨had, hac, ho⟩
    · exact Or.inl ⟨Node.context.inj ha, rfl⟩
    · cases he
    · refine Or.inr ⟨by simpa using hac, by simpa using had, ?_, ho⟩
      rintro rfl
      exact hac (hf.disjoint _ _ _ _ _ ho hk (List.mem_cons_of_mem _ he)
        (List.mem_cons_of_mem _ List.mem_cons_self))
  refine ⟨?_, ?_, ?_, ok.fresh, ?_⟩
  · intro a e k hk' he
    rcases hcases a e k he hk' with ⟨rfl, rfl⟩ | ⟨-, had, hed, hk'⟩
    · have hea : e ≠ a := by
        rintro rfl
        exact hdm he
      obtain ⟨⟨b', hcb', heb⟩, -, hre⟩ := ok.member c e _ hk (List.mem_cons_of_mem _ he)
      rw [hcb] at hcb'
      rw [Function.update_self, Function.update_of_ne hea]
      exact ⟨⟨b, hdb, hcb' ▸ heb⟩, rfl, hre⟩
    · rw [Function.update_of_ne had, Function.update_of_ne hed]
      exact ok.member a e k hk' he
  · intro e b' hb hr
    have hed : e ≠ d := by
      rintro rfl
      simp at hr
    rw [Function.update_of_ne hed] at hr
    obtain ⟨a, k, hk', he⟩ := ok.pending e b' hb hr
    by_cases hac : a = c
    · subst hac
      obtain rfl : _ = k := Option.some.inj (hk.symm.trans hk')
      refine ⟨d, m, Function.update_self _ _ _, ?_⟩
      simpa [hed] using he
    · have had : a ≠ d := by
        rintro rfl
        rw [hnone] at hk'
        cases hk'
      refine ⟨a, k, ?_, he⟩
      rw [Function.update_of_ne (by simpa using had), Function.update_of_ne (by simpa using hac)]
      exact hk'
  · intro a a' e e' k k' hk₁ he hk₂ he' hb
    rcases hcases a e k he hk₁ with ⟨rfl, rfl⟩ | ⟨hac, -, -, ho⟩ <;>
      rcases hcases a' e' k' he' hk₂ with ⟨rfl, rfl⟩ | ⟨hac', -, -, ho'⟩
    · rfl
    · -- the old handle of the batch is the only other one, and it has no members now
      exact absurd (ok.handle c a' a e' _ k' hk List.mem_cons_self ho' he'
        (hcb.trans (hdb.symm.trans hb))).symm hac'
    · exact absurd (ok.handle a c e a' k _ ho he hk List.mem_cons_self
        (hb.trans (hdb.trans hcb.symm))) hac
    · exact ok.handle a a' e e' k k' ho he ho' he' hb
  · intro l q e hq he
    rcases update_some_some_cases hq with ⟨ha, -⟩ | ⟨ha, -⟩ | ⟨-, -, hq⟩
    · cases ha
    · cases ha
    · exact ok.queue l q e hq he

end BatchOk

namespace Iter

structure Inv (s : Iter) : Prop where
  io : s.io.Inv
  batch : BatchOk s.io.rings s.batch s.returned s.count

theorem inv_init : init.Inv :=
  ⟨IoState.inv_init, by constructor <;> simp [init, IoState.init]⟩

variable {s : Iter}

/-- A dead worker's node is in no ring with members. -/
theorem Inv.loose_dead (hi : s.Inv) (t : Pid) (hw : s.io.worker t = none) :
    Loose s.io.rings (.context t) := by
  intro n k hn hm
  rcases List.mem_cons.mp hm with rfl | hm
  · refine ⟨rfl, ?_⟩
    by_contra hne
    obtain ⟨w, hw', -⟩ := hi.io.rings.handle t k hn hne
    rw [hw] at hw'
    cases hw'
  · obtain ⟨c, w, hc, hw', -⟩ := hi.io.rings.member n k hn _ hm
    rw [Node.context.injEq] at hc
    rw [← hc, hw] at hw'
    cases hw'

theorem nextResult_unknown (c : Pid) (hw : s.io.worker c = none) :
    nextResult s.io c = .esrch := by
  simp [nextResult, hw]

theorem nextResult_end (c : Pid) (hw : s.io.worker c ≠ none)
    (he : listEmpty s.io.heap (.context c) = true) : nextResult s.io c = .finished := by
  simp [nextResult, hw, umsComplistNextContext, he]

theorem Inv.nextResult_taken (hi : s.Inv) (c d : Pid) (m : List Node) (hw : s.io.worker c ≠ none)
    (hk : s.io.rings (.context c) = some (.context d :: m)) :
    nextResult s.io c = .context d := by
  obtain ⟨h, ht, -⟩ := hi.io.rings.family.takeFirst _ _ _ hk rfl
  have he : listEmpty s.io.heap (.context c) = false := by
    rw [← Bool.not_eq_true, listEmpty_ring _ _ _ (hi.io.rings.family.ring _ _ hk rfl)]
    simp
  simp [nextResult, hw, umsComplistNextContext, he, ht]

theorem Inv.step (hi : s.Inv) (act : IoAct) (hok : Guarded s.io act) (s' : Iter)
    (h : s.step act = some s') : s'.Inv := by
  obtain ⟨io, hio, rfl⟩ := Option.map_eq_some_iff.mp h
  have hi' := hi.io.step act hok io hio
  obtain ⟨-, heff⟩ := hi.io.effect act hok io hio
  cases heff with
  | created t l hl =>
    refine ⟨hi', hi.batch.setHeads (fun c d k _ => ?_) (fun m q c hq hc => ?_)⟩
    · simp [record, IoState.createUmsComplist]
    · rcases update_some_cases hq with ⟨-, rfl⟩ | ⟨-, hq⟩
      · cases hc
      · exact hi.batch.queue m q c hq hc
  | deleteUnknown t l hl => exact hi
  | deleted t l o hl ho =>
    refine ⟨hi', hi.batch.setHeads (fun c d k _ => by simp [record]) (fun m q c hq hc => ?_)⟩
    have hq' := IoState.of_putUmsComplist_rings _ _ _ hq
    exact hi.batch.queue m q c hq' hc
  | reenteredWorker t l node zero hw => simpa [record, hw] using hi
  | enteredWorker t l node zero o q heap hw hl hq =>
    simp only [record, hw, Option.isNone_none, if_true]
    exact ⟨hi', hi.batch.requeue (hi.loose_dead t hw) q hq⟩
  | reenteredScheduler t l hs => exact hi
  | enteredScheduler t l o hs hl => exact ⟨hi', hi.batch⟩
  | dequeueRefused t l copied hno =>
    have hrefused : ¬ ((s.io.list l).isSome = true ∧ (s.io.scheduler t).isSome = true) := by
      rcases hno with h | h <;> simp [h]
    cases copied with
    | true => simpa only [record, hrefused, if_false] using hi
    | false => exact hi
  | dequeued t l c m heap hl hs hq ht =>
    have hsome : (s.io.list l).isSome = true ∧ (s.io.scheduler t).isSome = true := by
      simpa [Option.isSome_iff_ne_none] using ⟨hl, hs⟩
    simp only [record, hsome, and_self, if_true, hq, Option.getD_some]
    exact ⟨hi', hi.batch.dequeue hi.io.rings.family c m hq⟩
  | putBack t l c m heap hl hs hq =>
    have hsame : Function.update s.io.rings (.context c) none = s.io.rings := by
      rw [← hi.io.rings.family.member_not_sentinel _ _ _ hq List.mem_cons_self,
        Function.update_eq_self]
    refine ⟨hi', hi.batch.setHeads (fun a d k hd => ?_) (fun l' q a hq' ha' => ?_)⟩
    · simp [record, hsame]
    · rcases update_none_some_cases hq' with ⟨-, rfl⟩ | ⟨-, -, hq'⟩
      · obtain rfl : a = c := by simpa using ha'
        exact hi.batch.queue l _ a hq List.mem_cons_self
      · exact hi.batch.queue l' q a hq' ha'
  | nextUnknown t c hw => simpa only [record, nextResult_unknown c hw] using hi
  | nextEnd t c hw he => simpa only [record, nextResult_end c hw he] using hi
  | nextTaken t c d m heap hw hk ht =>
    simp only [record, hi.nextResult_taken c d m hw hk]
    exact ⟨hi', hi.batch.next hi.io.rings.family c d m hk⟩
  | execRefused t w hno => exact hi
  | executed t w x y hx hidle hr hy => exact ⟨hi', hi.batch⟩
  | yieldRefused t args hw => simpa [record, hw] using hi
  | yielded t args p n l y o q heap hw hp hy hl hq hr =>
    simp only [record, hw, Option.isSome_some, if_true]
    exact ⟨hi', hi.batch.requeue (hi.io.rings.alone hr) q hq⟩
  | exitRefused t hw => simpa [record, hw] using hi
  | exited t p n l y o hw hp hy hl hr =>
    -- a running worker is alone in its ring, so no batch loses a member
    simp only [record, hw, Option.isSome_some, if_true]
    have ok := hi.batch.forget (hi.io.rings.alone hr)
    refine ⟨hi', ok.setHeads (fun c d k _ => by simp [forget, IoState.notify])
      (fun m q c hq hc => ?_)⟩
    have hq' := IoState.of_putUmsComplist_rings _ _ _ hq
    exact ok.queue m q c hq' hc
  | noEvents t copied hs => exact hi
  | event t copied x l e q hs => exact ⟨hi', hi.batch⟩

theorem Inv.move (hi : s.Inv) (mv : IoMove) (hok : Undisturbed s.io mv) (s' : Iter)
    (h : s.move mv = some s') : s'.Inv := by
  cases mv with
  | call act => exact hi.step act hok s' h
  | signal t =>
    obtain rfl := Option.some.inj h
    rw [IoState.signal_of_awake hok]
    exact hi

/-- Every worker of a batch that was not returned yet is behind one that was. -/
def Reaches (s : Iter) : Prop :=
  ∀ e b, s.batch e = some b → s.returned e = false →
    ∃ c k, Ring s.io.heap (.context c) k ∧ .context e ∈ k ∧ s.batch c = some b ∧
      s.returned c = true

theorem Inv.reaches (hi : s.Inv) : s.Reaches := by
  intro e b hb hr
  obtain ⟨c, k, hk, he⟩ := hi.batch.pending e b hb hr
  obtain ⟨⟨b', hcb, heb⟩, hrc, -⟩ := hi.batch.member c e k hk he
  rw [hb] at heb
  exact ⟨c, k, hi.io.rings.family.ring _ k hk rfl, he, heb ▸ hcb, hrc⟩

/-- What a call of `ums_complist_next_context` on `c` is to do, from `s` to `s'`. -/
def NextSafe (s : Iter) (c : Pid) (s' : Iter) : Prop :=
  (match nextResult s.io c with
    | .esrch => s.io.worker c = none ∧ s' = s
    | .finished => s' = s
    | .context d => s.io.worker d ≠ none ∧ (∃ b, s.batch c = some b ∧ s.batch d = some b) ∧
      s.returned d = false ∧ s'.returned d = true ∧
      ∃ k, Ring s'.io.heap (.context d) k ∧
        ∀ e, s.batch e = s.batch c → s.returned e = false → e ≠ d → .context e ∈ k
    | .head _ | .fault => False) ∧
  (∀ l q, s.io.list l ≠ none → Ring s.io.heap (.head l) q → Ring s'.io.heap (.head l) q) ∧
  s'.Reaches

/-- If every call is guarded and no signal ends a suspension, the iterator reports an unknown
context, the end, or a worker of the batch that was not returned before. It leaves the completion
lists as they are and keeps every other worker of the batch behind the new handle. -/
theorem nextContext_safe (s : Iter)
    (hr : Transition.Reach move (fun s mv => Undisturbed s.io mv) init s) (t c : Pid)
    (ha : s.io.asleep t = none) (hok : Guarded s.io (.nextContext t c)) :
    ∃ s', s.step (.nextContext t c) = some s' ∧ s.NextSafe c s' ∧ s'.io.fault = false := by
  have hi : s.Inv := hr.invariant Inv inv_init (fun _ mv s' hi hok h => hi.move mv hok s' h)
  obtain ⟨io, hio⟩ : ∃ io, s.io.step (.nextContext t c) = some io := by
    simp [IoState.step, IoAct.caller, ha]
  have hs : s.step (.nextContext t c) = some (s.record io (.nextContext t c)) := by
    simp [step, hio]
  have hi' := hi.step _ hok _ hs
  refine ⟨_, hs, ?_, hi'.io.fault⟩
  obtain ⟨-, heff⟩ := hi.io.effect _ hok io hio
  cases heff with
  | nextUnknown _ _ hw =>
    have he := nextResult_unknown c hw
    simp only [record, he] at hi' ⊢
    simp only [NextSafe, he]
    exact ⟨⟨hw, trivial⟩, fun _ _ _ h => h, hi'.reaches⟩
  | nextEnd _ _ hw hend =>
    have he := nextResult_end c hw hend
    simp only [record, he] at hi' ⊢
    simp only [NextSafe, he]
    exact ⟨trivial, fun _ _ _ h => h, hi'.reaches⟩
  | nextTaken _ _ d m heap hw hk ht =>
    have he := hi.nextResult_taken c d m hw hk
    simp only [record, he] at hi' ⊢
    simp only [NextSafe, he]
    obtain ⟨hb, hrc, hrd⟩ := hi.batch.member c d _ hk List.mem_cons_self
    obtain ⟨d', w, hd', hwd, -⟩ := hi.io.rings.member _ _ hk _ List.mem_cons_self
    rw [Node.context.injEq] at hd'
    have hd : (s.io.taken (.context c) d m heap).rings (.context d) = some m :=
      Function.update_self _ _ _
    refine ⟨⟨by simp [hd', hwd], hb, hrd, Function.update_self _ _ _, m,
      hi'.io.rings.family.ring _ m hd rfl, ?_⟩, ?_, hi'.reaches⟩
    · -- the handle of the batch is unique, so whoever is left was behind `c`
      intro e hbe hre hed
      obtain ⟨b, hcb, -⟩ := hb
      obtain ⟨a, k, hka, hek⟩ := hi.batch.pending e b (hbe.trans hcb) hre
      obtain ⟨⟨b', hab, heb⟩, -⟩ := hi.batch.member a e k hka hek
      have hac := hi.batch.handle a c e d k _ hka hek hk List.mem_cons_self
        (hab.trans (heb.symm.trans hbe))
      subst hac
      obtain rfl := Option.some.inj (hk.symm.trans hka)
      simpa [hed] using hek
    · intro l q hl hring
      obtain ⟨q', hq⟩ := hi.io.head_some hl
      rw [ring_unique s.io.heap (.head l) q q' hring (hi.io.rings.family.ring _ _ hq rfl)]
      refine hi'.io.rings.family.ring _ _ ?_ rfl
      simp [IoState.taken, hq]

/-- Workers 1 and 2 are dequeued together, and the call on 1 returns 2. -/
theorem nextContext_safe_two :
    ∃ s, Transition.Reach move (fun s mv => Undisturbed s.io mv) init s ∧
      (s.io.asleep 10 = none ∧ Guarded s.io (.nextContext 10 1) ∧
        nextResult s.io 1 = .context 2 ∧ s.batch 2 = some 0) ∧
      ∃ s', s.step (.nextContext 10 1) = some s' ∧ s.NextSafe 1 s' ∧ s'.io.fault = false := by
  obtain ⟨s, hr, hs⟩ := Transition.Reach.exists_of_run move (fun s mv => Undisturbed s.io mv) init
    (twoWorkers.map .call ++ [.call (.dqcontext 10 1 true)])
    (fun s => s.io.asleep 10 = none ∧ Guarded s.io (.nextContext 10 1) ∧
      nextResult s.io 1 = .context 2 ∧ s.batch 2 = some 0) (by decide +kernel)
  exact ⟨s, hr, hs, nextContext_safe s hr 10 1 hs.1 hs.2.1⟩

/-- On a worker that is still queued, the call goes along the completion list. On 1 it returns
worker 2, which no scheduler has dequeued, and unlinks 1 from the list; on 2, the last one, it
takes the head of the list for a context. -/
theorem nextContext_walks_list :
    ∃ s, Transition.Reach move (fun _ _ => True) init s ∧
      (s.io.heap (.head 1)).next = .node (.context 1) ∧ s.io.asleep 10 = none ∧
      nextResult s.io 1 = .context 2 ∧ s.batch 2 = none ∧
      ((s.step (.nextContext 10 1)).map fun s' => (s'.io.heap (.head 1)).next) =
        some (.node (.context 2)) ∧
      nextResult s.io 2 = .head 1 :=
  Transition.Reach.exists_of_run move (fun _ _ => True) init (twoWorkers.map .call) _
    (by decide +kernel)

end Iter

end LinuxUms
