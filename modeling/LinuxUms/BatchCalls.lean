import LinuxUms.EventQueue
import LinuxUms.Procfs

/-! The two calls that hand batches to user space, with their error paths. The lists are changed
before a result is delivered, so an error has to be undone; what each call undoes is shown for
lists and batches of any length. -/
namespace LinuxUms

open KernelList

/-- What an ioctl returns: 0 or a negative error number. -/
inductive Retval where
  | ok
  | eacces
  | einval
  | esrch
  | enomem
  deriving DecidableEq

/-- The failures of `ums_complist_dqcontext` after the removal: the links that can be made, that
of the first context and those of the others, and whether the pid can be copied. -/
structure DqcontextLuck where
  first : Bool := true
  rest : List Bool := []
  copied : Bool := true

/-- `ums_complist_dqcontext` once the list is found not to be empty. `added` are the contexts
that others add to the list before the call is over; it does not matter when, since they are
no part of the batch. -/
def dqcontextTaken (h : Heap Node) (P : Procfs) (p : Pid) (l : ListId) (luck : DqcontextLuck)
    (added : List Pid) : Option (Retval × Heap Node × Procfs) := do
  let (first, h) ← doDequeueUmsComplistContext h l
  let context ← first.worker
  let (linked, P) ← dqcontextLinks h P p context luck.first luck.rest
  let h ← added.foldlM (fun h d => umsCompletionListAdd h l d complistAddTail) h
  if linked = true ∧ luck.copied = true then return (.ok, h, P)
  else
    let h ← umsCompletionListAdd h l context complistAddHead
    return (if linked then .eacces else .enomem, h, P)

/-- `ums_complist_next_context` on a worker that is found: what it returns and what it writes
to user space. -/
def nextContextIoctl (h : Heap Node) (context : Pid) (copied : Bool) :
    Option (Retval × Option Pid × Heap Node) :=
  match umsComplistNextContext h context with
  | some (none, h) => some (if copied then (.ok, some (-1), h) else (.eacces, none, h))
  | some (some (.context d), h) => some (if copied then (.ok, some d, h) else (.eacces, none, h))
  | _ => none

/-- Iterating a batch from the handle `c` until the end is reported, in at most `n` calls. -/
def drain (h : Heap Node) (c : Pid) : ℕ → Option (List Pid × Heap Node)
  | 0 => none
  | n + 1 =>
    match nextContextIoctl h c true with
    | some (.ok, some d, h) =>
      if d = -1 then some ([], h) else (drain h d n).map (fun r => (d :: r.1, r.2))
    | _ => none

/-- A dequeue that succeeds and the iteration of its batch. -/
def dequeueAndDrain (h : Heap Node) (l : ListId) (n : ℕ) : Option (List Pid × Heap Node) := do
  let (first, h) ← doDequeueUmsComplistContext h l
  let context ← first.worker
  let (cs, h) ← drain h context n
  return (context :: cs, h)

/-- A completion list after the insertion of `cs`. -/
def queuedIn (l : ListId) (cs : List Pid) : Option (Heap Node) :=
  cs.foldlM (fun h c => umsCompletionListAdd h l c complistAddTail)
    (initListHead (fun _ => ⟨.null, .null⟩) (.head l))

/-- An open device with scheduler `p` and workers `ws`. -/
def registered (p : Pid) (ws : List Pid) : Procfs :=
  ws.foldl (fun P w => (P.umsWorkerProcRegister w {}).2)
    ((Procfs.init.umsProcDirsInit 0 {}).2.umsSchedulerProcRegister p {}).2

/-- `k` calls in a row on `c` whose result cannot be copied. -/
def failNext (h : Heap Node) (c : Pid) : ℕ → Option (List Retval × Heap Node)
  | 0 => some ([], h)
  | k + 1 => do
    let (retval, _, h) ← nextContextIoctl h c false
    let (rs, h) ← failNext h c k
    return (retval :: rs, h)

theorem nextContextIoctl_nil (h : Heap Node) (c : Pid) (hr : Ring h (.context c) [])
    (copied : Bool) : nextContextIoctl h c copied =
      some (if copied then (.ok, some (-1), h) else (.eacces, none, h)) := by
  have he := (listEmpty_ring h _ [] hr).mpr rfl
  simp [nextContextIoctl, umsComplistNextContext, he]

section Family

variable {h : Heap Node} {r : Node → Option (List Node)}

theorem nextContextIoctl_cons (hf : RingFamily h r (fun _ => none)) (c d : Pid) (ds : List Node)
    (hc : r (.context c) = some (.context d :: ds)) (copied : Bool) :
    ∃ h', nextContextIoctl h c copied =
        some (if copied then (.ok, some d, h') else (.eacces, none, h')) ∧
      RingFamily h' (Function.update (Function.update r (.context c) (some [])) (.context d)
        (some ds)) (fun _ => none) := by
  obtain ⟨h', ht, hf', -⟩ := hf.takeFirst (.context c) (.context d) ds hc rfl
  have he : listEmpty h (.context c) = false := by
    rw [← Bool.not_eq_true, listEmpty_ring h _ _ (hf.ring _ _ hc rfl)]
    simp
  exact ⟨h', by simp [nextContextIoctl, umsComplistNextContext, he, ht], hf'⟩

/-- Iteration returns what is behind the handle, in order. -/
theorem drain_ring (hf : RingFamily h r (fun _ => none)) (c : Pid) (ds : List Pid)
    (hc : r (.context c) = some (ds.map .context)) (hpos : ∀ d ∈ ds, 0 < d) (n : ℕ)
    (hn : ds.length < n) : ∃ h', drain h c n = some (ds, h') := by
  induction ds generalizing h r c n with
  | nil =>
    obtain ⟨m, rfl⟩ := Nat.exists_eq_add_one_of_ne_zero (Nat.ne_of_gt hn)
    exact ⟨h, by simp [drain, nextContextIoctl_nil h c (hf.ring _ _ hc rfl)]⟩
  | cons d ds ih =>
    obtain ⟨m, rfl⟩ := Nat.exists_eq_add_one_of_ne_zero (Nat.ne_of_gt (Nat.zero_lt_of_lt hn))
    obtain ⟨h₁, hnext, hf₁⟩ := nextContextIoctl_cons hf c d _ hc true
    have hd : d ≠ -1 := by
      rintro rfl
      exact absurd (hpos _ List.mem_cons_self) (by decide)
    obtain ⟨h₂, hdrain⟩ := ih hf₁ d (Function.update_self _ _ _)
      (fun e he => hpos e (List.mem_cons_of_mem d he)) m (by simpa using hn)
    exact ⟨h₂, by simp [drain, hnext, hd, hdrain]⟩

/-- The context put first in a list, and those added after it, are what the next dequeue
returns. -/
theorem dequeueAndDrain_ring (hf : RingFamily h r (fun _ => none)) (l : ListId) (c : Pid)
    (ds : List Pid) (hl : r (.head l) = some (.context c :: ds.map .context))
    (hpos : ∀ d ∈ ds, 0 < d) (n : ℕ) (hn : ds.length < n) :
    ∃ h', dequeueAndDrain h l n = some (c :: ds, h') := by
  obtain ⟨h₁, ht, hf₁, -⟩ := hf.takeFirst (.head l) (.context c) _ hl rfl
  obtain ⟨h₂, hd⟩ := drain_ring hf₁ c ds (Function.update_self _ _ _) hpos n hn
  exact ⟨h₂, by simp [dequeueAndDrain, doDequeueUmsComplistContext, ht, Node.worker, hd]⟩

/-- Contexts that are linked nowhere queue up behind what a list holds. -/
theorem addTail_all (hf : RingFamily h r (fun _ => none)) (l : ListId) (q added : List Pid)
    (hl : r (.head l) = some (q.map .context)) (hnd : added.Nodup)
    (hloose : ∀ d ∈ added, Loose r (.context d)) :
    ∃ h' r', added.foldlM (fun h d => umsCompletionListAdd h l d complistAddTail) h = some h' ∧
      RingFamily h' r' (fun _ => none) ∧ r' (.head l) = some ((q ++ added).map .context) ∧
      ∀ a, a ≠ .head l → (∀ d ∈ added, a ≠ .context d) → r' a = r a := by
  induction added generalizing h r q with
  | nil => exact ⟨h, r, rfl, hf, by simpa using hl, fun _ _ _ => rfl⟩
  | cons d added ih =>
    obtain ⟨hd, hnd⟩ := List.nodup_cons.mp hnd
    have hld := hloose d List.mem_cons_self
    obtain ⟨h₁, ha, hf₁, -⟩ := hf.listAddTail (.head l) (.context d) _ hl rfl hld (by simp)
    have hl₁ : Function.update (Function.update r (.context d) none) (.head l)
        (some (q.map .context ++ [.context d])) (.head l) = some ((q ++ [d]).map .context) := by
      simp
    obtain ⟨h₂, r₂, ha₂, hf₂, hl₂, hr₂⟩ := ih hf₁ (q ++ [d]) hl₁ hnd (fun e he => by
      refine (hloose e (List.mem_cons_of_mem d he)).insert hl (by simp) ?_ (fun y hy => ?_)
      · rw [ne_eq, Node.context.injEq]
        rintro rfl
        exact hd he
      · simpa [or_comm] using hy)
    refine ⟨h₂, r₂, ?_, hf₂, by simpa using hl₂, fun a hal had => ?_⟩
    · have hop : umsCompletionListAdd h l d complistAddTail = some h₁ := ha
      simp [hop, ha₂]
    · rw [hr₂ a hal (fun e he => had e (List.mem_cons_of_mem d he)), Function.update_of_ne hal,
        Function.update_of_ne (had d List.mem_cons_self)]

theorem mapM_worker (ds : List Pid) : (ds.map Node.context).mapM Node.worker = some ds := by
  induction ds with
  | nil => rfl
  | cons d ds ih => simp [Node.worker, ih]

/-- The loop over a batch finds the workers of its members, one round each. -/
theorem dqcontextLinks_ring (hf : RingFamily h r (fun _ => none)) (P : Procfs) (p c : Pid)
    (ds : List Pid) (hc : r (.context c) = some (ds.map .context)) (first : Bool)
    (rest : List Bool) :
    dqcontextLinks h P p c first rest =
      if (P.umsSchedulerProcRegisterWorker p c first).1 then
        if rest.length = ds.length then
          some (true, P.registerWorkers p ((c, first) :: ds.zip rest))
        else none
      else some (false, P.registerWorkers p [(c, first)]) := by
  have hwalk := ring_listForEach h _ _ (hf.ring _ _ hc rfl) rest.length
  rw [List.length_map] at hwalk
  rcases heq : P.umsSchedulerProcRegisterWorker p c first with ⟨_ | _, P'⟩
  · simp [dqcontextLinks, heq, Procfs.registerWorkers]
  · by_cases hlen : rest.length = ds.length
    · simp only [hlen, if_true] at hwalk
      simp [dqcontextLinks, heq, hlen, hwalk, mapM_worker, Procfs.registerWorkers, -List.mapM_map]
    · simp only [hlen, if_false] at hwalk
      simp [dqcontextLinks, heq, hlen, hwalk]

/-- However a dequeue fails, it puts the first context back before those added meanwhile, and
no other. -/
theorem dqcontextTaken_failed (hf : RingFamily h r (fun _ => none)) (P : Procfs) (p : Pid)
    (l : ListId) (c : Pid) (ds added : List Pid)
    (hl : r (.head l) = some ((c :: ds).map .context)) (hnd : added.Nodup)
    (hloose : ∀ d ∈ added, Loose r (.context d)) (luck : DqcontextLuck) (linked : Bool)
    (P' : Procfs) (hlinks : ∀ h', RingFamily h' (Function.update (Function.update r (.head l)
      (some [])) (.context c) (some (ds.map .context))) (fun _ => none) →
      dqcontextLinks h' P p c luck.first luck.rest = some (linked, P'))
    (hfail : linked = false ∨ luck.copied = false) :
    ∃ h' r', dqcontextTaken h P p l luck added =
        some (if linked then .eacces else .enomem, h', P') ∧
      RingFamily h' r' (fun _ => none) ∧ r' (.head l) = some ((c :: added).map .context) := by
  obtain ⟨h₁, ht, hf₁, -⟩ := hf.takeFirst (.head l) (.context c) _ hl rfl
  have hlinks₁ := hlinks h₁ hf₁
  have hl₁ : Function.update (Function.update r (.head l) (some [])) (.context c)
      (some (ds.map .context)) (.head l) = some (([] : List Pid).map .context) := by
    simp
  obtain ⟨h₂, r₂, ha, hf₂, hl₂, hr₂⟩ := addTail_all hf₁ l [] added hl₁ hnd
    (fun d hd => (hloose d hd).takeFirst hl)
  have hc₂ : r₂ (.context c) = some (ds.map .context) := by
    rw [hr₂ _ (by simp) (fun d hd he => ?_), Function.update_self]
    exact absurd (by simp [← he]) ((hloose d hd).not_mem_cons hl)
  -- The other members stay behind: the family forgets the batch before `c` is linked again.
  obtain ⟨h₃, hadd, hf₃, -⟩ := (hf₂.forget (.context c) rfl).listAdd (.head l) (.context c)
    _ (by rw [Function.update_of_ne (by simp), hl₂]) rfl (hf₂.loose_forget _ _ hc₂) (by simp)
  have hop : umsCompletionListAdd h₂ l c complistAddHead = some h₃ := hadd
  have hbad : ¬ (linked = true ∧ luck.copied = true) := by
    rintro ⟨h₁, h₂⟩
    rcases hfail with h | h <;> simp_all
  refine ⟨h₃, _, ?_, hf₃, by simp⟩
  simp [dqcontextTaken, doDequeueUmsComplistContext, ht, Node.worker, hlinks₁, ha, hbad, hop]

/-- The contexts `cs` are in the list, before those that were added since, and the next dequeue
and drain returns them all. -/
def ListRestored (h : Heap Node) (l : ListId) (cs added : List Pid) : Prop :=
  Ring h (.head l) ((cs ++ added).map .context) ∧
    ∀ n, (cs ++ added).length ≤ n → ∃ h', dequeueAndDrain h l n = some (cs ++ added, h')

/-- Counts and links are as before. -/
def LinksKept (P P' : Procfs) : Prop := P'.scheduler = P.scheduler ∧ P'.tree = P.tree

/-- With the first context alone, all contexts of the list are back exactly if there were no
others. -/
theorem listRestored_iff {h' : Heap Node} {r' : Node → Option (List Node)} {l : ListId} {c : Pid}
    (ds : List Pid) {added : List Pid} (hf : RingFamily h' r' (fun _ => none))
    (hl : r' (.head l) = some ((c :: added).map .context)) (hpos : ∀ a ∈ added, 0 < a) :
    ListRestored h' l (c :: ds) added ↔ ds = [] := by
  have hring := hf.ring _ _ hl rfl
  constructor
  · intro hrest
    have hlen := congrArg List.length (ring_unique h' (.head l) _ _ hrest.1 hring)
    simp only [List.length_map, List.length_append, List.length_cons] at hlen
    exact List.eq_nil_of_length_eq_zero (by omega)
  · rintro rfl
    exact ⟨hring, fun n hn => dequeueAndDrain_ring hf l c added hl hpos n hn⟩

/-- A dequeue that fails when it has already changed the list returns an error. It puts back the
first context only, and takes no link back: list, counts and links are as before exactly if the
context was alone in the list and its link could not be made. -/
theorem dqcontext_failed_restores (hf : RingFamily h r (fun _ => none)) (P : Procfs) (p : Pid)
    (d : SchedulerProcDirs) (hd : P.scheduler p = some d) (l : ListId) (c : Pid)
    (w : WorkerProcDirs) (hw : P.worker c = some w) (ds added : List Pid)
    (hl : r (.head l) = some ((c :: ds).map .context)) (hnd : added.Nodup)
    (hloose : ∀ a ∈ added, Loose r (.context a)) (hpos : ∀ a ∈ added, 0 < a)
    (luck : DqcontextLuck) (hlen : luck.rest.length = ds.length)
    (hfail : P.LinkFails d luck.first ∨ luck.copied = false) :
    ∃ v h' P', dqcontextTaken h P p l luck added = some (v, h', P') ∧ v ≠ .ok ∧
      (ListRestored h' l (c :: ds) added ∧ LinksKept P P' ↔ ds = [] ∧ P.LinkFails d luck.first) ∧
      (ListRestored h' l (c :: ds) added ↔ ds = []) ∧
      (LinksKept P P' ↔ P.LinkFails d luck.first) := by
  have hlinks (h' : Heap Node) (hf' : RingFamily h' (Function.update (Function.update r (.head l)
      (some [])) (.context c) (some (ds.map .context))) (fun _ => none)) :=
    dqcontextLinks_ring hf' P p c ds (Function.update_self _ _ _) luck.first luck.rest
  rcases P.umsSchedulerProcRegisterWorker_cases p c luck.first d w hd hw with
    ⟨hreg, hno⟩ | ⟨e, -, hreg, hyes⟩
  · simp only [hreg, Bool.false_eq_true, if_false] at hlinks
    obtain ⟨h', r', hcall, hf', hl'⟩ := dqcontextTaken_failed hf P p l c ds added hl hnd hloose luck
      _ _ hlinks (Or.inl rfl)
    have hlist := listRestored_iff ds hf' hl' hpos
    have hkept : LinksKept P (P.registerWorkers p [(c, luck.first)]) ↔ P.LinkFails d luck.first :=
      iff_of_true (by simp [LinksKept, Procfs.registerWorkers, hreg]) hno
    exact ⟨_, h', _, hcall, by simp, and_congr hlist hkept, hlist, hkept⟩
  · simp only [hreg, hlen, if_true] at hlinks
    have hmade : ¬ P.LinkFails d luck.first := by
      simp [Procfs.LinkFails, hyes]
    obtain ⟨h', r', hcall, hf', hl'⟩ := dqcontextTaken_failed hf P p l c ds added hl hnd hloose luck
      _ _ hlinks (Or.inr (hfail.resolve_left hmade))
    have hlist := listRestored_iff ds hf' hl' hpos
    -- the count went up with the first link, and nothing brings it down again
    have hkept : LinksKept P (P.registerWorkers p ((c, luck.first) :: ds.zip luck.rest)) ↔
        P.LinkFails d luck.first := by
      refine iff_of_false (fun hk => ?_) hmade
      obtain ⟨d', hd', hle⟩ := Procfs.registerWorkers_nWorkers
        (P.umsSchedulerProcRegisterWorker p c luck.first).2 p _
        (by rw [hreg]; exact Function.update_self _ _ _) (ds.zip luck.rest)
      have hsame : (P.registerWorkers p ((c, luck.first) :: ds.zip luck.rest)).scheduler p =
          some d := by rw [hk.1, hd]
      obtain rfl : d' = d := Option.some.inj (hd'.symm.trans hsame)
      exact absurd hle (Nat.not_succ_le_self _)
    exact ⟨_, h', _, hcall, by simp, and_congr hlist hkept, hlist, hkept⟩

/-- Worker 2 is alone in list 1 when scheduler 9 fails to link it, and worker 3 comes in. -/
theorem dqcontext_failed_restores_one : ∃ h r, RingFamily h r (fun _ => none) ∧
    r (.head 1) = some [.context 2] ∧
    ∃ v h' P', dqcontextTaken h (registered 9 [2]) 9 1 ⟨false, [], true⟩ [3] = some (v, h', P') ∧
      v ≠ .ok ∧ ListRestored h' 1 [2] [3] ∧ LinksKept (registered 9 [2]) P' := by
  have hf₁ := (ringFamily_none fun _ => ⟨.null, .null⟩).initListHead (Node.head 1) rfl
    (fun _ _ h => by simp at h)
  have hloose (c : Pid) : Loose (Function.update (fun _ => none) (.head 1) (some []))
      (Node.context c) := by
    intro a l ha hm
    obtain ⟨rfl, rfl⟩ | ⟨-, ha⟩ := update_some_cases ha
    · simp at hm
    · cases ha
  obtain ⟨h, -, hf, -⟩ := hf₁.listAddTail (.head 1) (.context 2) [] (Function.update_self _ _ _) rfl
    (hloose 2) (by simp)
  obtain ⟨v, h', P', hcall, hv, hrest, -, -⟩ := dqcontext_failed_restores hf (registered 9 [2]) 9
    _ rfl 1 2 _ rfl [] [3] (Function.update_self _ _ _) (by simp)
    (fun a ha => by
      obtain rfl := List.mem_singleton.mp ha
      exact (hloose 3).insert (Function.update_self _ _ _) (by simp) (by simp) (by simp))
    (by simp) ⟨false, [], true⟩ rfl (Or.inl (Or.inl rfl))
  obtain ⟨hlist, hkept⟩ := hrest.mpr ⟨rfl, Or.inl rfl⟩
  exact ⟨h, _, hf, Function.update_self _ _ _, v, h', P', hcall, hv, hlist, hkept⟩

/-- Only the first context goes back, and links that were made are not taken back: of a list
with 2 and 3 the next dequeue returns 2 alone, and a pid that could not be copied leaves the
scheduler with a link and a count of 1. -/
theorem dqcontext_failure_drops :
    (do
      let h ← queuedIn 1 [2, 3]
      let (v, h, _) ← dqcontextTaken h (registered 9 [2, 3]) 9 1 ⟨false, [true], true⟩ []
      let (cs, _) ← dequeueAndDrain h 1 9
      return (v, cs)) = some (.enomem, [2]) ∧
    (do
      let h ← queuedIn 1 [2, 3]
      let (v, h, _) ← dqcontextTaken h (registered 9 [2, 3]) 9 1 ⟨true, [true], false⟩ []
      let (cs, _) ← dequeueAndDrain h 1 9
      return (v, cs)) = some (.eacces, [2]) ∧
    (do
      let h ← queuedIn 1 [2]
      let (v, _, P) ← dqcontextTaken h (registered 9 [2]) 9 1 ⟨true, [], false⟩ []
      let d ← P.scheduler 9
      return (v, d.nWorkers, (P.tree.children d.workersDir).length)) = some (.eacces, 1, 1) := by
  decide +kernel

/-- Iterating from the handle `c` returns the members `ds`. -/
def IteratesTo (h : Heap Node) (c : Pid) (ds : List Pid) : Prop :=
  ∀ n, ds.length < n → ∃ h', drain h c n = some (ds, h')

/-- Calls whose result cannot be copied return `-EACCES`. The first of them loses the members that
the batch has left for the handle, so that the batch is kept exactly if there are none, or no call
is made. -/
theorem nextContext_failed_keeps (hf : RingFamily h r (fun _ => none)) (c : Pid) (ds : List Pid)
    (hc : r (.context c) = some (ds.map .context)) (hpos : ∀ d ∈ ds, 0 < d) (k : ℕ) :
    ∃ h', failNext h c k = some (List.replicate k .eacces, h') ∧
      (IteratesTo h' c ds ↔ ds = [] ∨ k = 0) := by
  induction k generalizing h r ds with
  | zero => exact ⟨h, rfl, iff_of_true (fun n hn => drain_ring hf c ds hc hpos n hn) (Or.inr rfl)⟩
  | succ k ih =>
    cases ds with
    | nil =>
      obtain ⟨h', hk, hdrain⟩ := ih hf [] hc hpos
      refine ⟨h', ?_, iff_of_true (hdrain.mpr (Or.inl rfl)) (Or.inl rfl)⟩
      simp [failNext, nextContextIoctl_nil h c (hf.ring _ _ hc rfl), hk, List.replicate_succ]
    | cons d ds =>
      obtain ⟨h₁, hnext, hf₁⟩ := nextContextIoctl_cons hf c d _ hc false
      have hne : Node.context c ≠ .context d := fun he =>
        (List.nodup_cons.mp (hf.nodup _ _ hc)).1 (by simp [he])
      obtain ⟨h', hk, hdrain⟩ := ih hf₁ []
        (by rw [Function.update_of_ne hne, Function.update_self]; rfl) (by simp)
      refine ⟨h', by simp [failNext, hnext, hk, List.replicate_succ], iff_of_false (fun hall => ?_)
        (by simp)⟩
      -- the batch went to `d`, and iterating from `c` reports the end at once
      obtain ⟨h₂, hempty⟩ := hdrain.mpr (Or.inl rfl) ((d :: ds).length + 1) (by simp)
      obtain ⟨h₃, hfull⟩ := hall ((d :: ds).length + 1) (Nat.lt_succ_self _)
      cases hempty.symm.trans hfull

/-- Member 2 is lost for the handle 1 by three failing calls, and is still there before the
first. -/
theorem nextContext_failed_keeps_three : ∃ (h : Heap Node) (r : Node → Option (List Node)),
    RingFamily h r (fun _ => none) ∧ r (.context 1) = some [.context 2] ∧
    (∃ h', failNext h 1 0 = some ([], h') ∧ IteratesTo h' 1 [2]) ∧
    ∃ h', failNext h 1 3 = some ([.eacces, .eacces, .eacces], h') ∧ ¬ IteratesTo h' 1 [2] := by
  have hf₁ := (ringFamily_none fun _ => ⟨.null, .null⟩).initListHead (Node.context 1) rfl
    (fun _ _ h => by simp at h)
  have hloose : Loose (Function.update (fun _ => none) (Node.context 1) (some []))
      (.context 2) := by
    intro a l ha hm
    obtain ⟨rfl, rfl⟩ | ⟨-, ha⟩ := update_some_cases ha
    · simp at hm
    · cases ha
  obtain ⟨h, -, hf, -⟩ := hf₁.listAddTail (.context 1) (.context 2) [] (Function.update_self _ _ _)
    rfl hloose (by simp)
  obtain ⟨h', hk, hd⟩ := nextContext_failed_keeps hf 1 [2] (Function.update_self _ _ _) (by simp) 0
  obtain ⟨h'', hk'', hd''⟩ := nextContext_failed_keeps hf 1 [2] (Function.update_self _ _ _)
    (by simp) 3
  exact ⟨h, _, hf, Function.update_self _ _ _, ⟨h', hk, hd.mpr (Or.inr rfl)⟩, h'', hk'',
    fun hall => by simpa using hd''.mp hall⟩

/-- The context is taken out before its pid is copied: after a failed call on the batch of 1
with the member 2, the batch is at its end. -/
theorem nextContext_failure_drops :
    (do
      let h ← queuedIn 1 [1, 2]
      let (_, h) ← doDequeueUmsComplistContext h 1
      let (vs, h) ← failNext h 1 1
      let (cs, _) ← drain h 1 9
      return (vs, cs)) = some ([.eacces], []) := by
  decide +kernel

end Family

end LinuxUms
