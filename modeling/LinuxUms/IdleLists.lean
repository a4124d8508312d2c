import LinuxUms.Ioctl

/-! The list nodes between calls. Completion lists and dequeued batches are rings of idle
workers, and the node of a running worker is linked to itself. -/
namespace LinuxUms

open KernelList

/-- The nodes of the rings in `r`. -/
def InRings (r : Node → Option (List Node)) (x : Node) : Prop := ∃ n k, r n = some k ∧ x ∈ n :: k

/-- The rings `r` in the heap, for the lists in `L`, and the workers in them. -/
structure RingsOk (h : Heap Node) (r : Node → Option (List Node)) (L : ListId → Option ListRec)
    (W : Pid → Option Worker) : Prop where
  family : RingFamily h r (fun _ => none)
  head : ∀ l, r (.head l) = none ↔ L l = none
  queue : ∀ l q, r (.head l) = some q → ∀ x ∈ q, ∃ c w, x = .context c ∧
    W c = some w ∧ w.complist = some l ∧ w.context.state = .idle
  batch : ∀ c k, r (.context c) = some k → ∀ x ∈ k, ∃ d w, x = .context d ∧
    W d = some w ∧ w.context.state = .idle
  handle : ∀ c k, r (.context c) = some k → k ≠ [] → ∃ w, W c = some w ∧ w.context.state = .idle
  running : ∀ c w, W c = some w → w.context.state = .running → r (.context c) = some []
  -- the rest of a batch that was not reported is in no ring, and not linked to itself either
  stale : ∀ c w, W c = some w → ¬ InRings r (.context c) →
    (h (.context c)).next ≠ .node (.context c)

namespace RingsOk

variable {h : Heap Node} {r : Node → Option (List Node)} {L : ListId → Option ListRec}
  {W : Pid → Option Worker} {t : Pid} {l : ListId}

/-- Every member of a ring is a live idle worker. -/
theorem member (ok : RingsOk h r L W) (n : Node) (k : List Node) (hn : r n = some k) (x : Node)
    (hx : x ∈ k) : ∃ c w, x = .context c ∧ W c = some w ∧ w.context.state = .idle := by
  cases n with
  | head l =>
    obtain ⟨c, w, he, hw, -, hi⟩ := ok.queue l k hn x hx
    exact ⟨c, w, he, hw, hi⟩
  | context c => exact ok.batch c k hn x hx

/-- A context that is the sentinel of an empty ring is in no other ring. -/
theorem alone (ok : RingsOk h r L W) (ht : r (.context t) = some []) :
    Loose r (.context t) := by
  intro n k hn hm
  have he := ok.family.disjoint n (.context t) k [] (.context t) hn ht hm List.mem_cons_self
  subst he
  rw [ht, Option.some.injEq] at hn
  exact ⟨rfl, hn.symm⟩

theorem not_mem (ok : RingsOk h r L W) (ht : r (.context t) = some []) (n : Node)
    (k : List Node) (hn : r n = some k) : .context t ∉ k := by
  intro hm
  have hl := ok.alone ht n k hn (List.mem_cons_of_mem n hm)
  rw [hl.2] at hm
  cases hm

/-- A worker whose node is linked to itself may change in any way. -/
theorem setWorker (ok : RingsOk h r L W) (ht : r (.context t) = some []) (x : Option Worker) :
    RingsOk h r L (Function.update W t x) := by
  have hne (n : Node) (k : List Node) (hn : r n = some k) (c : Pid) (hc : .context c ∈ k) :
      Function.update W t x c = W c := by
    apply Function.update_of_ne
    rintro rfl
    exact ok.not_mem ht n k hn hc
  refine ⟨ok.family, ok.head, ?_, ?_, ?_, ?_, ?_⟩
  · intro l q hq y hy
    obtain ⟨c, w, rfl, hw, hl, hi⟩ := ok.queue l q hq y hy
    exact ⟨c, w, rfl, (hne _ q hq c hy).trans hw, hl, hi⟩
  · intro c k hk y hy
    obtain ⟨d, w, rfl, hw, hi⟩ := ok.batch c k hk y hy
    exact ⟨d, w, rfl, (hne _ k hk d hy).trans hw, hi⟩
  · intro c k hk hne'
    by_cases hc : c = t
    · subst hc
      rw [ht, Option.some.injEq] at hk
      exact absurd hk.symm hne'
    · obtain ⟨w, hw, hi⟩ := ok.handle c k hk hne'
      exact ⟨w, by simp only [Function.update_of_ne hc]; exact hw, hi⟩
  · intro c w hw hr
    by_cases hc : c = t
    · subst hc
      exact ht
    · simp only [Function.update_of_ne hc] at hw
      exact ok.running c w hw hr
  · intro c w hw hn
    by_cases hc : c = t
    · subst hc
      exact absurd ⟨_, _, ht, List.mem_cons_self⟩ hn
    · simp only [Function.update_of_ne hc] at hw
      exact ok.stale c w hw hn

/-- A loose context becomes the last element of a list, and its worker idle. -/
theorem insert (ok : RingsOk h r L W) (q : List Node) (hq : r (.head l) = some q)
    (ht : Loose r (.context t)) (w : Worker) (hl : w.complist = some l)
    (hi : w.context.state = .idle) (h' : Heap Node)
    (hadd : listAddTail h (.context t) (.head l) = some h') :
    RingsOk h' (Function.update (Function.update r (.context t) none) (.head l)
      (some (q ++ [.context t]))) L (Function.update W t (some w)) := by
  obtain ⟨h₁, hh, hf, hfr⟩ := ok.family.listAddTail (.head l) (.context t) q hq rfl ht (by simp)
  obtain rfl : h₁ = h' := Option.some.inj (hh.symm.trans hadd)
  -- the members of the old rings are other workers
  have hold (n : Node) (k : List Node) (hn : r n = some k) (c : Pid) (hc : .context c ∈ k) :
      Function.update W t (some w) c = W c := by
    apply Function.update_of_ne
    rintro rfl
    have he := (ht n k hn (List.mem_cons_of_mem n hc)).2
    rw [he] at hc
    cases hc
  have hkeep (n : Node) (k : List Node) (hn : r n = some k) (hnl : n ≠ .head l)
      (hnt : n ≠ .context t) : Function.update (Function.update r (.context t) none)
        (.head l) (some (q ++ [.context t])) n = some k := by
    rw [Function.update_of_ne hnl, Function.update_of_ne hnt]
    exact hn
  refine ⟨hf, ?_, ?_, ?_, ?_, ?_, ?_⟩
  · intro m
    by_cases hm : m = l
    · subst hm
      simp [← ok.head m, hq]
    · rw [Function.update_of_ne (by simp [hm]), Function.update_of_ne (by simp)]
      exact ok.head m
  · intro m k hk x hx
    rcases update_none_some_cases hk with ⟨hm, rfl⟩ | ⟨-, -, hr⟩
    · rw [Node.head.injEq] at hm
      subst hm
      rcases List.mem_append.mp hx with hx | hx
      · obtain ⟨c, v, rfl, hv, hcl, hci⟩ := ok.queue m q hq x hx
        exact ⟨c, v, rfl, (hold _ q hq c hx).trans hv, hcl, hci⟩
      · exact ⟨t, w, List.mem_singleton.mp hx, by simp, hl, hi⟩
    · obtain ⟨c, v, rfl, hv, hcl, hci⟩ := ok.queue m k hr x hx
      exact ⟨c, v, rfl, (hold _ k hr c hx).trans hv, hcl, hci⟩
  · intro c k hk x hx
    rcases update_none_some_cases hk with ⟨hm, -⟩ | ⟨-, -, hr⟩
    · cases hm
    · obtain ⟨d, v, rfl, hv, hdi⟩ := ok.batch c k hr x hx
      exact ⟨d, v, rfl, (hold _ k hr d hx).trans hv, hdi⟩
  · intro c k hk hne
    rcases update_none_some_cases hk with ⟨hm, -⟩ | ⟨-, hct, hr⟩
    · cases hm
    · obtain ⟨v, hv, hvi⟩ := ok.handle c k hr hne
      have hc : c ≠ t := fun he => hct (by rw [he])
      exact ⟨v, by simp only [Function.update_of_ne hc]; exact hv, hvi⟩
  · intro c v hv hr
    by_cases hc : c = t
    · subst hc
      simp only [Function.update_self, Option.some.injEq] at hv
      rw [← hv, hi] at hr
      cases hr
    · simp only [Function.update_of_ne hc] at hv
      exact hkeep _ _ (ok.running c v hv hr) (by simp) (by simp [hc])
  · intro c v hv hn
    -- what is in no ring now was in none before, and its node is untouched
    have hct : c ≠ t := by
      rintro rfl
      exact hn ⟨.head l, q ++ [.context c], by simp, by simp⟩
    have hno (n : Node) (k : List Node) (hr : r n = some k) : .context c ∉ n :: k := by
      intro hm
      by_cases hnl : n = .head l
      · subst hnl
        rw [hq, Option.some.injEq] at hr
        subst hr
        refine hn ⟨.head l, q ++ [.context t], by simp, ?_⟩
        simp only [List.mem_cons, List.mem_append] at hm ⊢
        tauto
      · by_cases hnt : n = .context t
        · subst hnt
          have hk := (ht _ k hr List.mem_cons_self).2
          subst hk
          simp [hct] at hm
        · exact hn ⟨n, k, hkeep n k hr hnl hnt, hm⟩
    simp only [Function.update_of_ne hct] at hv
    rw [hfr (.context c) (by simp [hct]) (hno _ q hq)]
    exact ok.stale c v hv (fun ⟨n, k, hr, hm⟩ => hno n k hr hm)

/-- The first member behind `a` is taken, and what is left stands behind it. -/
theorem take (ok : RingsOk h r L W) (a : Node) (c : Pid) (k : List Node)
    (ha : r a = some (.context c :: k)) (h' : Heap Node)
    (htake : takeFirst h a = some (.context c, h')) :
    RingsOk h' (Function.update (Function.update r a (some [])) (.context c) (some k)) L W := by
  obtain ⟨h₁, hh, hf, hfr⟩ := ok.family.takeFirst a (.context c) k ha rfl
  obtain rfl : h₁ = h' := (Prod.mk.inj (Option.some.inj (hh.symm.trans htake))).2
  have hnone := ok.family.member_not_sentinel a (.context c) _ ha List.mem_cons_self
  have hac : a ≠ .context c := by
    rintro rfl
    rw [ha] at hnone
    cases hnone
  refine ⟨hf, ?_, ?_, ?_, ?_, ?_, ?_⟩
  · intro m
    rw [Function.update_of_ne (by simp), ← ok.head m]
    by_cases hm : .head m = a
    · subst hm
      simp [ha]
    · rw [Function.update_of_ne hm]
  · intro m q hq x hx
    rcases update_some_some_cases hq with ⟨hm, -⟩ | ⟨-, rfl⟩ | ⟨-, -, hr⟩
    · cases hm
    · cases hx
    · exact ok.queue m q hr x hx
  · intro d m hm x hx
    rcases update_some_some_cases hm with ⟨-, rfl⟩ | ⟨-, rfl⟩ | ⟨-, -, hr⟩
    · exact ok.member a _ ha x (List.mem_cons_of_mem _ hx)
    · cases hx
    · exact ok.batch d m hr x hx
  · intro d m hm hne
    rcases update_some_some_cases hm with ⟨hd, -⟩ | ⟨-, rfl⟩ | ⟨-, -, hr⟩
    · obtain ⟨e, w, he, hw, hi⟩ := ok.member a _ ha (.context c) List.mem_cons_self
      rw [Node.context.injEq] at hd he
      subst hd he
      exact ⟨w, hw, hi⟩
    · exact absurd rfl hne
    · exact ok.handle d m hr hne
  · intro d w hw hr
    have hd := ok.running d w hw hr
    have hdc : Node.context d ≠ .context c := by
      intro he
      rw [he, hnone] at hd
      cases hd
    have hda : Node.context d ≠ a := by
      intro he
      rw [he, ha] at hd
      cases hd
    rw [Function.update_of_ne hdc, Function.update_of_ne hda]
    exact hd
  · intro d w hw hn
    -- every node of the old rings is in one of the new ones
    have hno (n : Node) (m : List Node) (hr : r n = some m) : .context d ∉ n :: m := by
      intro hm
      by_cases hna : n = a
      · subst hna
        rw [ha, Option.some.injEq] at hr
        subst hr
        rcases List.mem_cons.mp hm with he | hm
        · refine hn ⟨n, [], ?_, he ▸ List.mem_cons_self⟩
          rw [Function.update_of_ne hac, Function.update_self]
        · exact hn ⟨.context c, k, Function.update_self _ _ _, hm⟩
      · have hnc : n ≠ .context c := by
          rintro rfl
          rw [hnone] at hr
          cases hr
        exact hn ⟨n, m, by rw [Function.update_of_ne hnc, Function.update_of_ne hna]; exact hr, hm⟩
    rw [hfr _ (hno a _ ha)]
    exact ok.stale d w hw (fun ⟨n, m, hr, hm⟩ => hno n m hr hm)

/-- The first context of a batch that could not be reported goes back to its list, which is
empty. The rest of the batch stays as it is and is in no ring any more. -/
theorem putBack (ok : RingsOk h r L W) (c : Pid) (k : List Node) (hc : r (.context c) = some k)
    (hl : r (.head l) = some []) (w : Worker) (hw : W c = some w) (hwl : w.complist = some l)
    (hi : w.context.state = .idle) (h' : Heap Node)
    (hadd : listAdd h (.context c) (.head l) = some h') :
    RingsOk h' (Function.update (Function.update r (.context c) none) (.head l)
      (some [.context c])) L W := by
  obtain ⟨h₁, hh, hf, hfr⟩ := (ok.family.forget (.context c) rfl).listAdd (.head l) (.context c) []
    (by rw [Function.update_of_ne (by simp)]; exact hl) rfl
    (ok.family.loose_forget _ k hc) (by simp)
  obtain rfl : h₁ = h' := Option.some.inj (hh.symm.trans hadd)
  rw [Function.update_idem] at hf
  refine ⟨hf, ?_, ?_, ?_, ?_, ?_, ?_⟩
  · intro m
    rw [← ok.head m]
    by_cases hm : m = l
    · simp [hm, hl]
    · rw [Function.update_of_ne (by simp [hm]), Function.update_of_ne (by simp)]
  · intro m q hq x hx
    rcases update_none_some_cases hq with ⟨hm, rfl⟩ | ⟨-, -, hr⟩
    · rw [Node.head.injEq] at hm
      subst hm
      exact ⟨c, w, List.mem_singleton.mp hx, hw, hwl, hi⟩
    · exact ok.queue m q hr x hx
  · intro d m hm x hx
    rcases update_none_some_cases hm with ⟨hd, -⟩ | ⟨-, -, hr⟩
    · cases hd
    · exact ok.batch d m hr x hx
  · intro d m hm hne
    rcases update_none_some_cases hm with ⟨hd, -⟩ | ⟨-, -, hr⟩
    · cases hd
    · exact ok.handle d m hr hne
  · intro d v hv hr
    have hdc : d ≠ c := by
      rintro rfl
      rw [hw, Option.some.injEq] at hv
      rw [← hv, hi] at hr
      cases hr
    rw [Function.update_of_ne (by simp), Function.update_of_ne (by simp [hdc])]
    exact ok.running d v hv hr
  · intro d v hv hn
    have hdc : d ≠ c := by
      rintro rfl
      exact hn ⟨.head l, [.context d], by simp, by simp⟩
    rw [hfr (.context d) (by simp [hdc]) (by simp)]
    -- the rest of the lost batch still points into the old ring
    by_cases hk : .context d ∈ k
    · exact ring_member_next h _ _ k (ok.family.ring _ k hc rfl) hk
    · apply ok.stale d v hv
      rintro ⟨n, m, hr, hm⟩
      by_cases hnc : n = .context c
      · subst hnc
        rw [hc, Option.some.injEq] at hr
        subst hr
        simp [hdc, hk] at hm
      · by_cases hnl : n = .head l
        · subst hnl
          rw [hl, Option.some.injEq] at hr
          subst hr
          simp at hm
        · refine hn ⟨n, m, ?_, hm⟩
          rw [Function.update_of_ne hnl, Function.update_of_ne hnc]
          exact hr

/-- A new list. -/
theorem create (ok : RingsOk h r L W) (hl : L l = none) (o : ListRec) :
    RingsOk (initListHead h (.head l)) (Function.update r (.head l) (some []))
      (Function.update L l (some o)) W := by
  have hnone := (ok.head l).mpr hl
  -- an id that is not in use heads no ring, and heads are members of none
  have hout (n : Node) (k : List Node) (hn : r n = some k) : .head l ∉ n :: k := by
    intro hm
    rcases List.mem_cons.mp hm with he | hm
    · rw [← he, hnone] at hn
      cases hn
    · obtain ⟨c, w, hc, -⟩ := ok.member n k hn _ hm
      cases hc
  refine ⟨ok.family.initListHead (.head l) rfl hout, ?_, ?_, ?_, ?_, ?_, ?_⟩
  · intro m
    by_cases hm : m = l
    · simp [hm]
    · rw [Function.update_of_ne (by simp [hm]), Function.update_of_ne hm]
      exact ok.head m
  · intro m q hq x hx
    by_cases hm : m = l
    · subst hm
      rw [Function.update_self, Option.some.injEq] at hq
      rw [← hq] at hx
      cases hx
    · rw [Function.update_of_ne (by simp [hm])] at hq
      exact ok.queue m q hq x hx
  · intro c k hk
    rw [Function.update_of_ne (by simp)] at hk
    exact ok.batch c k hk
  · intro c k hk
    rw [Function.update_of_ne (by simp)] at hk
    exact ok.handle c k hk
  · intro c w hw hr
    rw [Function.update_of_ne (by simp)]
    exact ok.running c w hw hr
  · intro c w hw hn
    have hne : Node.context c ≠ .head l := by simp
    simp only [initListHead, Function.update_of_ne hne]
    apply ok.stale c w hw
    rintro ⟨n, k, hr, hm⟩
    have hnl : n ≠ .head l := fun he => hout n k hr (he ▸ List.mem_cons_self)
    exact hn ⟨n, k, by rw [Function.update_of_ne hnl]; exact hr, hm⟩

/-- The record of a list changes. -/
theorem setList (ok : RingsOk h r L W) (hl : L l ≠ none) (o : ListRec) :
    RingsOk h r (Function.update L l (some o)) W := by
  refine ⟨ok.family, ?_, ok.queue, ok.batch, ok.handle, ok.running, ok.stale⟩
  intro m
  by_cases hm : m = l
  · subst hm
    simp [ok.head m, hl]
  · rw [Function.update_of_ne hm]
    exact ok.head m

/-- A list to which no worker is attached is empty. -/
theorem queue_nil (ok : RingsOk h r L W) (q : List Node) (hq : r (.head l) = some q)
    (hno : ∀ c w, W c = some w → w.complist ≠ some l) : q = [] := by
  apply List.eq_nil_iff_forall_not_mem.mpr
  intro x hx
  obtain ⟨c, w, -, hw, hl, -⟩ := ok.queue l q hq x hx
  exact hno c w hw hl

/-- A list is freed to which no worker is attached. -/
theorem release (ok : RingsOk h r L W) (hno : ∀ c w, W c = some w → w.complist ≠ some l) :
    RingsOk h (Function.update r (.head l) none) (Function.update L l none) W := by
  have hold (n : Node) (k : List Node) (hn : Function.update r (.head l) none n = some k) :
      r n = some k :=
    (of_update_none hn).2
  refine ⟨?_, ?_, ?_, ?_, ?_, ?_, ?_⟩
  · exact ok.family.restrict _ _ hold (fun _ _ hp => by cases hp) (fun _ _ _ _ _ => rfl)
  · intro m
    by_cases hm : m = l
    · simp [hm]
    · rw [Function.update_of_ne (by simp [hm]), Function.update_of_ne hm]
      exact ok.head m
  · exact fun m q hq => ok.queue m q (hold _ q hq)
  · exact fun c k hk => ok.batch c k (hold _ k hk)
  · exact fun c k hk => ok.handle c k (hold _ k hk)
  · intro c w hw hr
    rw [Function.update_of_ne (by simp)]
    exact ok.running c w hw hr
  · intro c w hw hn
    apply ok.stale c w hw
    rintro ⟨n, k, hr, hm⟩
    by_cases hnl : n = .head l
    · subst hnl
      rw [ok.queue_nil k hr hno] at hm
      simp at hm
    · exact hn ⟨n, k, by rw [Function.update_of_ne hnl]; exact hr, hm⟩

/-- The node of a thread that is no worker is allocated anew. -/
theorem renew (ok : RingsOk h r L W) (ht : W t = none) (node : Links Node) :
    RingsOk (Function.update h (.context t) node) (Function.update r (.context t) none) L W ∧
      Loose (Function.update r (.context t) none) (.context t) := by
  have hout (n : Node) (k : List Node) (hn : r n = some k) : .context t ∉ k := by
    intro hm
    obtain ⟨c, w, hc, hw, -⟩ := ok.member n k hn _ hm
    rw [Node.context.injEq] at hc
    rw [← hc, ht] at hw
    cases hw
  have hold (n : Node) (k : List Node) (hn : Function.update r (.context t) none n = some k) :
      n ≠ .context t ∧ r n = some k :=
    of_update_none hn
  have hfr (n : Node) (k : List Node) (hn : Function.update r (.context t) none n = some k) :
      .context t ∉ n :: k := by
    obtain ⟨hne, hr⟩ := hold n k hn
    simp only [List.mem_cons, not_or]
    exact ⟨hne.symm, hout n k hr⟩
  have hlive (c : Pid) (w : Worker) (hw : W c = some w) : c ≠ t := by
    rintro rfl
    rw [ht] at hw
    cases hw
  refine ⟨⟨?_, ?_, ?_, ?_, ?_, ?_, ?_⟩, fun n k hn hm => absurd hm (hfr n k hn)⟩
  · apply ok.family.restrict _ _ (fun n k hn => (hold n k hn).2) (fun _ _ hp => by cases hp)
    intro n k x hn hx
    apply Function.update_of_ne
    rintro rfl
    exact hfr n k hn hx
  · intro m
    rw [Function.update_of_ne (by simp)]
    exact ok.head m
  · exact fun m q hq => ok.queue m q (hold _ q hq).2
  · exact fun c k hk => ok.batch c k (hold _ k hk).2
  · exact fun c k hk => ok.handle c k (hold _ k hk).2
  · intro c w hw hr
    rw [Function.update_of_ne (by simp [hlive c w hw])]
    exact ok.running c w hw hr
  · intro c w hw hn
    rw [Function.update_of_ne (by simp [hlive c w hw])]
    apply ok.stale c w hw
    rintro ⟨n, k, hr, hm⟩
    by_cases hnt : n = .context t
    · -- a ring behind the node of a thread that is no worker is empty
      subst hnt
      have hk : k = [] := by
        by_contra hne
        obtain ⟨w', hw', -⟩ := ok.handle t k hr hne
        rw [ht] at hw'
        cases hw'
      subst hk
      simp [hlive c w hw] at hm
    · exact hn ⟨n, k, by rw [Function.update_of_ne hnt]; exact hr, hm⟩

/-- An idle worker whose node is linked to itself is in no ring but its own. -/
theorem selfLinked (ok : RingsOk h r L W) (w : Worker) (hw : W t = some w)
    (he : listEmpty h (.context t) = true) : r (.context t) = some [] := by
  have hnext : (h (.context t)).next = .node (.context t) := of_decide_eq_true he
  by_cases hin : InRings r (.context t)
  · obtain ⟨n, k, hr, hm⟩ := hin
    have hring := ok.family.ring n k hr rfl
    rcases List.mem_cons.mp hm with rfl | hm
    · rw [hr, (listEmpty_ring h _ k hring).mp he]
    · exact absurd hnext (ring_member_next h n _ k hring hm)
  · exact absurd hnext (ok.stale t w hw hin)

end RingsOk

end LinuxUms
