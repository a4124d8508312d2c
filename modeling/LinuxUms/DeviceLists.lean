import LinuxUms.Conservation
import LinuxUms.DeviceMoves

namespace LinuxUms

open KernelList Handoff

/-- The contexts that have been put in list `l`, the first one first. -/
def Handoff.queuedTo {T L E : Type*} [DecidableEq L] (l : L) : List (Obs T L E) → List T
  | [] => []
  | .queued w k :: h => if k = l then queuedTo l h ++ [w] else queuedTo l h
  | _ :: h => queuedTo l h

/-- Where a worker puts itself in its list. -/
def Pc.adds : Pc → Bool
  | .enterAdd _ | .yieldAdd => true
  | _ => false

namespace Device

/-- The list behind a head or a handle. -/
def Linked (s : Device) (n : Node) (ms : List Pid) : Prop :=
  Ring s.heap n (ms.map .context)

/-- What a step of thread `t` does to the lists of a device in the hand-over state `σ`: it leaves
them, adds `t`, takes a whole list, or the next context of a batch, or closes a batch. -/
inductive Relink (s : Device) (σ : Handoff Pid ListId Event) (t : Pid) (s' : Device) : Prop where
  | keep (hpc : ∀ c, s.pc t ≠ .nextContext c)
      (hf : RingFamily s'.heap (linked σ) (fun _ => none))
      (hh : ∀ l, queuedTo l s'.hist = queuedTo l s.hist) (hb : s'.batches = s.batches)
  | add (l : ListId) (hpc : (s.pc t).adds = true) (hout : (σ.place t).unlisted = true)
      (hl : (s.worker t).map Worker.complist = some (some l))
      (hf : RingFamily s'.heap (Function.update (Function.update (linked σ) (.context t) none)
        (.head l) (some ((σ.queue l).map .context ++ [.context t]))) (fun _ => none))
      (hh : s'.hist = .queued t l :: s.hist) (hb : s'.batches = s.batches)
  | take (l : ListId) (c : Pid) (cs : List Pid) (hpc : s.pc t = .dqTest l)
      (hq : σ.queue l = c :: cs)
      (hf : RingFamily s'.heap (Function.update (Function.update (linked σ) (.head l) (some []))
        (.context c) (some (cs.map .context))) (fun _ => none))
      (hh : s'.hist = s.hist)
      (hb : s'.batches = Function.update s.batches t ([c] :: s.batches t))
  | next (c d : Pid) (ds : List Pid) (hpc : s.pc t = .nextContext c) (hr : σ.rest c = d :: ds)
      (hf : RingFamily s'.heap (Function.update (Function.update (linked σ) (.context c) (some []))
        (.context d) (some (ds.map .context))) (fun _ => none))
      (hh : s'.hist = .ret t .nextContext .ok :: s.hist)
      (hb : s'.batches = Function.update s.batches t (handNext c d (s.batches t)))
  | close (c : Pid) (hpc : s.pc t = .nextContext c) (hr : σ.rest c = [])
      (hf : RingFamily s'.heap (linked σ) (fun _ => none))
      (hh : s'.hist = .ret t .nextContext .ok :: s.hist)
      (hb : s'.batches = Function.update s.batches t (closeBatch c (s.batches t)).2)

variable {s s' : Device} {σ : Handoff Pid ListId Event} {t : Pid}

theorem queuedTo_wakes (k : Switching) (t : Pid) (l : ListId) (h : List (Obs Pid ListId Event)) :
    queuedTo l (k.wakes t ++ h) = queuedTo l h := by
  cases k <;> rfl

/-- A worker that suspends itself goes to the end of its list. -/
theorem relink_add (hA : Abs s σ) (hI : σ.Inv) (l : ListId) (h : Heap Node) (c : Pc)
    (hpc : (s.pc t).adds = true) (hpl : σ.place t = .entering ∨ σ.place t = .leaving)
    (hl : (s.worker t).map Worker.complist = some (some l))
    (hadd : umsCompletionListAdd s.heap l t complistAddTail = some h) :
    Relink s σ t (({ s with heap := h }.log (.queued t l)).setPc t c) := by
  have hout : (σ.place t).unlisted = true := by
    rcases hpl with h | h <;> rw [h] <;> rfl
  have hloose : Loose (linked σ) (.context t) := by
    intro a k ha hm
    exact absurd hm (not_mem_linked hI t hout a k ha)
  obtain ⟨h', hadd', hrings, -⟩ :=
    hA.rings.listAddTail (.head l) (.context t) _ rfl rfl hloose (by simp)
  obtain rfl : h' = h := Option.some.inj (hadd'.symm.trans hadd)
  exact .add l hpc hout hl hrings rfl rfl

theorem relink_of_move (hA : Abs s σ) (hI : σ.Inv) (hm : s.Move t (s.pc t) s') :
    Relink s σ t s' := by
  have hphase := hA.phase t
  have hok := hA.pc t
  generalize hpc : s.pc t = c at hm hphase hok
  cases hm with
  | enterAttach | sleep | schedAttach | startup | dqSleep | dqWoken | yieldParent | yieldPost
  | exitParent | exitPost | evSleep | evTake | evWoken | awake | wake | startReturn
  | dqInterrupted | dqReturn | exitOrphan | destroy | evInterrupted | evReturn =>
    exact .keep (by simp [hpc]) hA.rings (fun _ => rfl) rfl
  | switching k op ops =>
    have hb := beside_switchOp s (k.contexts t).1 (k.contexts t).2 op
    refine .keep (by simp [hpc]) ?_ (fun l => ?_) hb.batches
    · show RingFamily (s.switchOp _ _ op).heap _ _
      rw [hb.heap]
      exact hA.rings
    · show queuedTo l (if op = .wakeUp then _ else _) = _
      rw [hb.hist]
      split
      · exact queuedTo_wakes k t l s.hist
      · rfl
  | enterAdd l h hadd =>
    obtain ⟨-, w, hw, hl, -⟩ := hok
    refine relink_add hA hI l h _ (by rw [hpc]; rfl) (Or.inl ((hI.entering t).mpr hphase)) ?_ hadd
    rw [hw, ← hl]
    rfl
  | yieldAdd x l h hw hadd =>
    refine relink_add hA hI l h _ (by rw [hpc]; rfl) (Or.inr ((hI.leaving t).mpr hphase)) ?_ hadd
    rw [hw]
    rfl
  | dqTake l c h he htake =>
    have hne : σ.queue l ≠ [] := by
      intro hnil
      rw [(hA.listEmpty_head l).mpr hnil] at he
      cases he
    obtain ⟨x, xs, hq⟩ := List.exists_cons_of_ne_nil hne
    obtain ⟨h', htake', hrings, -⟩ := hA.rings.takeFirst (.head l) (.context x) (xs.map .context)
      (by rw [linked, hq]; rfl) rfl
    obtain ⟨hx, rfl⟩ := Prod.mk.inj (Option.some.inj (htake'.symm.trans htake))
    obtain rfl : x = c := Node.context.inj hx
    exact .take l x xs hpc hq hrings rfl rfl
  | next c d h hnext =>
    have hc : σ.place c = .handed t := hI.handed_of_handle t c (by rw [hA.batches]; exact hok)
    have hne : σ.rest c ≠ [] := by
      intro hnil
      rw [umsComplistNextContext, if_pos ((hA.listEmpty_handle c t hc).mpr hnil)] at hnext
      cases hnext
    obtain ⟨x, xs, hr⟩ := List.exists_cons_of_ne_nil hne
    obtain ⟨h', htake', hrings, -⟩ := hA.rings.takeFirst (.context c) (.context x)
      (xs.map .context) (by rw [linked_of_handed c t hc, hr]; rfl) rfl
    have hfull : ¬ listEmpty s.heap (.context c) = true := by
      rw [hA.listEmpty_handle c t hc]
      exact hne
    rw [umsComplistNextContext, if_neg hfull, htake', Option.map_some, Option.some.injEq,
      Prod.mk.injEq, Option.some.injEq] at hnext
    obtain ⟨hx, rfl⟩ := hnext
    obtain rfl : x = d := Node.context.inj hx
    exact .next c x xs hpc hr hrings rfl rfl
  | close c h hnext =>
    have hc : σ.place c = .handed t := hI.handed_of_handle t c (by rw [hA.batches]; exact hok)
    have hnil : σ.rest c = [] := by
      rw [← hA.listEmpty_handle c t hc]
      by_contra hfull
      rw [umsComplistNextContext, if_neg hfull] at hnext
      cases htake : takeFirst s.heap (.context c) with
      | none =>
        rw [htake] at hnext
        cases hnext
      | some r =>
        rw [htake] at hnext
        cases hnext
    exact .close c hpc hnil hA.rings rfl rfl

/-- A call changes no list: the context of a worker that enters is in none. -/
theorem call_keeps_lists (hA : Abs s σ) (hI : σ.Inv) {a : DeviceAct} (hs : s.call a = some s') :
    RingFamily s'.heap (linked σ) (fun _ => none) ∧
      (∀ l, queuedTo l s'.hist = queuedTo l s.hist) ∧ s'.batches = s.batches := by
  cases a with
  | enterWorker u l node zero =>
    rw [Device.call] at hs
    split at hs <;> cases hs
    · exact ⟨hA.rings, fun _ => rfl, rfl⟩
    · rename_i hno
      have hoff : σ.place u = .off := by
        rw [← hA.live u]
        exact Option.not_isSome_iff_eq_none.mp hno
      refine ⟨?_, fun _ => rfl, rfl⟩
      refine hA.rings.restrict _ _ (fun _ _ h => h) (fun _ _ h => by cases h) ?_
      intro n k x hn hx
      apply Function.update_of_ne
      rintro rfl
      exact not_mem_linked hI u (by rw [hoff]; rfl) n k hn hx
  | run | signal => cases hs
  | _ =>
    rw [Device.call] at hs
    split at hs <;> cases hs <;> exact ⟨hA.rings, fun _ => rfl, rfl⟩

variable {n : Node} {ms : List Pid}

/-- The list behind a node of a family. -/
theorem linked_of_family {r : Node → Option (List Node)}
    (hf : RingFamily s.heap r (fun _ => none)) (h : r n = some (ms.map .context)) : Linked s n ms :=
  hf.ring n _ h rfl

theorem Linked.queue_eq (hA : Abs s σ) {l : ListId} (h : Linked s (.head l) ms) :
    ms = σ.queue l :=
  map_context_injective (ring_unique _ _ _ _ h (hA.queue_ring l))

theorem Linked.rest_eq (hA : Abs s σ) {c p : Pid} (hc : σ.place c = .handed p)
    (h : Linked s (.context c) ms) : ms = σ.rest c :=
  map_context_injective (ring_unique _ _ _ _ h (hA.rest_ring c p hc))

theorem linked_head (hA : Abs s σ) {l : ListId} (h : Linked s (.head l) ms) :
    linked σ (.head l) = some (ms.map .context) := by
  rw [h.queue_eq hA]
  rfl

/-- A step leaves the list behind a handle of another scheduler, and behind any handle if it does
not work on one. -/
theorem Relink.handle (hA : Abs s σ) (hI : σ.Inv) (h : Relink s σ t s') {p c : Pid}
    (hp : p ≠ t ∨ s'.batches = s.batches) (hc : IsHandle c (s.batches p))
    (hl : Linked s (.context c) ms) : Linked s' (.context c) ms := by
  have hhanded : σ.place c = .handed p := hI.handed_of_handle p c (by rw [hA.batches]; exact hc)
  have hold : linked σ (.context c) = some (ms.map .context) := by
    rw [hl.rest_eq hA hhanded]
    exact linked_of_handed c p hhanded
  have hne {x : Pid} (hx : σ.place x ≠ .handed p) : Node.context c ≠ .context x := by
    intro he
    rw [← Node.context.inj he] at hx
    exact hx hhanded
  cases h with
  | keep _ hf | close _ _ _ hf => exact linked_of_family hf hold
  | add l hpc hout hl hf =>
    apply linked_of_family hf
    rw [Function.update_of_ne (by simp), Function.update_of_ne (hne ?_), hold]
    intro hx
    rw [hx] at hout
    cases hout
  | take l x xs hpc hq hf =>
    apply linked_of_family hf
    rw [Function.update_of_ne (hne ?_), Function.update_of_ne (by simp), hold]
    rw [(hI.mem_queue l x).mp (by rw [hq]; exact List.mem_cons_self)]
    simp
  | next x d ds hpc hr hf hh hb =>
    have hxt : IsHandle x (s.batches t) := by
      have hok := hA.pc t
      rwa [hpc] at hok
    have hx : σ.place x = .handed t := hI.handed_of_handle t x (by rw [hA.batches]; exact hxt)
    have hpt : p ≠ t := by
      refine hp.resolve_right (fun hsame => ?_)
      -- `d` is one more context in the batches of `t`
      have hcount := count_handNext x d d (s.batches t) hxt
      rw [← Function.update_self t (handNext x d (s.batches t)) s.batches, ← hb, hsame,
        if_pos rfl] at hcount
      omega
    apply linked_of_family hf
    rw [Function.update_of_ne (hne ?_), Function.update_of_ne (hne ?_), hold]
    · rw [hx]
      intro he
      exact hpt (Place.handed.inj he).symm
    · obtain ⟨u, hu⟩ := (hI.mem_rest x d).mp (by rw [hr]; exact List.mem_cons_self)
      rw [hu]
      simp

end Device

end LinuxUms
