import Mathlib.Data.List.Infix
import Mathlib.Data.List.Nodup

/-! Trees of named entries in which an entry goes together with everything below it. An entry
is known by a serial number that is never used again, so that a pointer kept to an entry that
has gone is not mistaken for a pointer to a later one. -/
namespace ProcTree

structure Entry (N D : Type*) where
  serial : ℕ
  name : N
  data : D
  deriving DecidableEq

/-- An entry with its ancestors, itself first. The empty path is the directory that the whole
tree hangs from. -/
abbrev Path (N D : Type*) := List (Entry N D)

@[ext]
structure Tree (N D : Type*) where
  entries : List (Path N D)
  next : ℕ
  deriving DecidableEq

namespace Tree

variable {N D : Type*}

def empty : Tree N D := ⟨[], 0⟩

/-- Every entry stands in a directory of the tree, and entries of one directory differ in name. -/
structure Ok (T : Tree N D) : Prop where
  nonempty : [] ∉ T.entries
  parent : ∀ x d, x :: d ∈ T.entries → d = [] ∨ d ∈ T.entries
  fresh : ∀ e ∈ T.entries, ∀ x ∈ e, x.serial < T.next
  names : ∀ x y d, x :: d ∈ T.entries → y :: d ∈ T.entries → x.name = y.name → x = y
  nodup : T.entries.Nodup

theorem ok_empty : (empty : Tree N D).Ok := by
  constructor <;> simp [empty]

variable {T : Tree N D} {d p : Path N D} {n : N} {v : D}

/-- A path that ends in a serial number still to be given is above no entry. -/
theorem Ok.not_suffix (ok : T.Ok) (x : Entry N D) (hx : x.serial = T.next) (e : Path N D)
    (he : e ∈ T.entries) : ¬ (x :: d) <:+ e := by
  intro hs
  have hlt := ok.fresh e he x (hs.subset List.mem_cons_self)
  omega

/-- A directory in which an entry stands is there. -/
theorem Ok.ancestor (ok : T.Ok) (e q : Path N D) (he : e ∈ T.entries) (hs : q <:+ e) :
    q = [] ∨ q ∈ T.entries := by
  induction e with
  | nil => exact absurd he ok.nonempty
  | cons x d ih =>
    rcases List.suffix_cons_iff.mp hs with rfl | hs
    · exact Or.inr he
    · rcases ok.parent x d he with rfl | hd
      · exact Or.inl (List.suffix_nil.mp hs)
      · exact ih hd hs

/-- What is not in the tree has nothing below it. -/
theorem Ok.not_suffix_of_notMem (ok : T.Ok) (p e : Path N D) (hp : p ≠ []) (h : p ∉ T.entries)
    (he : e ∈ T.entries) : ¬ p <:+ e := by
  intro hs
  rcases ok.ancestor e p he hs with hnil | hmem
  · exact hp hnil
  · exact h hmem

variable [DecidableEq N] [DecidableEq D]

def children (T : Tree N D) (d : Path N D) : List (Path N D) :=
  T.entries.filter (fun e => e ≠ [] ∧ e.tail = d)

def hasName (T : Tree N D) (d : Path N D) (n : N) : Bool :=
  (T.children d).any (fun e => e.head?.any (fun x => x.name = n))

/-- A new entry below `d`, unless there is no memory for it or the name is in use there. -/
def create (T : Tree N D) (d : Path N D) (n : N) (v : D) (memory : Bool) :
    Option (Path N D) × Tree N D :=
  if memory ∧ T.hasName d n = false then
    let e := ⟨T.next, n, v⟩ :: d
    (some e, ⟨e :: T.entries, T.next + 1⟩)
  else (none, T)

/-- `p` goes with all its descendants. -/
def remove (T : Tree N D) (p : Path N D) : Tree N D :=
  { T with entries := T.entries.filter (fun e => ¬ p <:+ e) }

@[simp]
theorem mem_remove (e : Path N D) : e ∈ (T.remove p).entries ↔ e ∈ T.entries ∧ ¬ p <:+ e := by
  simp [remove]

@[simp]
theorem remove_next : (T.remove p).next = T.next := rfl

theorem mem_children (e : Path N D) : e ∈ T.children d ↔ e ∈ T.entries ∧ ∃ x, e = x :: d := by
  cases e with
  | nil => simp [children]
  | cons x q =>
    simp only [children, List.mem_filter, ne_eq, reduceCtorEq, not_false_eq_true, List.tail_cons,
      true_and, List.cons.injEq, exists_eq_left', decide_eq_true_iff]

theorem children_cons_ne (e : Path N D) (es : List (Path N D)) (m : ℕ) (h : e.tail ≠ d) :
    (⟨e :: es, m⟩ : Tree N D).children d = es.filter (fun e => e ≠ [] ∧ e.tail = d) := by
  simp [children, h]

theorem children_cons_self (x : Entry N D) (es : List (Path N D)) (m : ℕ) :
    (⟨(x :: d) :: es, m⟩ : Tree N D).children d =
      (x :: d) :: es.filter (fun e => e ≠ [] ∧ e.tail = d) := by
  simp [children]

theorem children_remove (p d : Path N D) :
    (T.remove p).children d = (T.children d).filter (fun e => ¬ p <:+ e) := by
  simp only [children, remove, List.filter_filter]
  exact List.filter_congr fun e _ => Bool.and_comm _ _

theorem children_remove_eq (h : ∀ e ∈ T.children d, ¬ p <:+ e) :
    (T.remove p).children d = T.children d := by
  rw [children_remove, List.filter_eq_self]
  exact fun e he => by simpa using h e he

/-- A directory loses an entry. -/
theorem children_remove_self (x : Entry N D) (hnd : T.entries.Nodup) :
    (T.remove (x :: d)).children d = (T.children d).erase (x :: d) := by
  have hnd' : (T.children d).Nodup := hnd.filter _
  rw [children_remove, hnd'.erase_eq_filter]
  refine List.filter_congr fun e he => ?_
  obtain ⟨-, y, rfl⟩ := (mem_children e).mp he
  have hiff : x :: d <:+ y :: d ↔ y :: d = x :: d :=
    ⟨fun h => (h.eq_of_length rfl).symm, fun h => h ▸ List.suffix_refl _⟩
  by_cases h : y :: d = x :: d <;> simp [hiff, h]

theorem hasName_iff : T.hasName d n = true ↔ ∃ x, x :: d ∈ T.entries ∧ x.name = n := by
  simp only [hasName, List.any_eq_true, mem_children]
  constructor
  · rintro ⟨e, ⟨he, x, rfl⟩, hx⟩
    exact ⟨x, he, by simpa using hx⟩
  · rintro ⟨x, hx, hn⟩
    exact ⟨x :: d, ⟨hx, x, rfl⟩, by simpa using hn⟩

/-- What a creation does, one way or the other. -/
theorem create_cases (memory : Bool) :
    (T.create d n v memory = (none, T) ∧ (memory = false ∨ T.hasName d n = true)) ∨
      (T.create d n v memory = (some (⟨T.next, n, v⟩ :: d),
        ⟨(⟨T.next, n, v⟩ :: d) :: T.entries, T.next + 1⟩) ∧ memory = true ∧
        T.hasName d n = false) := by
  unfold create
  split
  · rename_i h
    exact Or.inr ⟨rfl, h⟩
  · rename_i h
    refine Or.inl ⟨rfl, ?_⟩
    cases memory with
    | false => exact Or.inl rfl
    | true => simpa using h

theorem Ok.create (ok : T.Ok) (hd : d = [] ∨ d ∈ T.entries) (memory : Bool) :
    (T.create d n v memory).2.Ok := by
  rcases T.create_cases (d := d) (n := n) (v := v) memory with ⟨h, -⟩ | ⟨h, -, hname⟩
  · rw [h]
    exact ok
  · rw [h]
    have hnew (x : Entry N D) (hx : x :: d ∈ T.entries) : x.name ≠ n := by
      intro hn
      rw [hasName_iff.mpr ⟨x, hx, hn⟩] at hname
      cases hname
    have hfresh : (⟨T.next, n, v⟩ :: d : Path N D) ∉ T.entries :=
      fun he => ok.not_suffix _ rfl _ he (List.suffix_refl _)
    refine ⟨?_, ?_, ?_, ?_, List.nodup_cons.mpr ⟨hfresh, ok.nodup⟩⟩
    · simpa using ok.nonempty
    · intro x q hx
      rcases List.mem_cons.mp hx with he | hx
      · rw [(List.cons.inj he).2]
        exact hd.imp id (List.mem_cons_of_mem _)
      · exact (ok.parent x q hx).imp id (List.mem_cons_of_mem _)
    · intro e he x hx
      rcases List.mem_cons.mp he with rfl | he
      · rcases List.mem_cons.mp hx with rfl | hx
        · exact Nat.lt_succ_self _
        · rcases hd with rfl | hd
          · cases hx
          · exact Nat.lt_succ_of_lt (ok.fresh d hd x hx)
      · exact Nat.lt_succ_of_lt (ok.fresh e he x hx)
    · intro x y q hx hy hxy
      rcases List.mem_cons.mp hx with hx' | hx' <;> rcases List.mem_cons.mp hy with hy' | hy'
      · exact (List.cons.inj hx').1.trans (List.cons.inj hy').1.symm
      · obtain ⟨rfl, rfl⟩ := List.cons.inj hx'
        exact absurd hxy.symm (hnew y hy')
      · obtain ⟨rfl, rfl⟩ := List.cons.inj hy'
        exact absurd hxy (hnew x hx')
      · exact ok.names x y q hx' hy' hxy

theorem Ok.cons (ok : T.Ok) (hd : d = [] ∨ d ∈ T.entries) (hname : T.hasName d n = false) :
    (⟨(⟨T.next, n, v⟩ :: d) :: T.entries, T.next + 1⟩ : Tree N D).Ok := by
  simpa [Tree.create, hname] using ok.create (n := n) (v := v) hd true

omit [DecidableEq N] [DecidableEq D] in
/-- Serial numbers may be passed over. -/
theorem Ok.mono (ok : T.Ok) (m : ℕ) (h : T.next ≤ m) : (⟨T.entries, m⟩ : Tree N D).Ok :=
  ⟨ok.nonempty, ok.parent, fun e he x hx => (ok.fresh e he x hx).trans_le h, ok.names, ok.nodup⟩

/-- Removing what was just created. -/
theorem Ok.remove_cons (ok : T.Ok) (x : Entry N D) (hx : x.serial = T.next) (m : ℕ) :
    (⟨(x :: d) :: T.entries, m⟩ : Tree N D).remove (x :: d) = ⟨T.entries, m⟩ := by
  ext1
  · simp only [Tree.remove]
    rw [List.filter_cons_of_neg (by simp), List.filter_eq_self]
    intro e he
    simpa using ok.not_suffix x hx e he
  · rfl

/-- A directory takes with it what is below. -/
theorem remove_remove (q : Path N D) (h : p <:+ q) : (T.remove q).remove p = T.remove p := by
  ext1
  · simp only [Tree.remove, List.filter_filter]
    refine List.filter_congr fun e _ => ?_
    by_cases hp : p <:+ e
    · simp [hp]
    · have hq : ¬ q <:+ e := fun hq => hp (h.trans hq)
      simp [hp, hq]
  · rfl

theorem Ok.remove (ok : T.Ok) (p : Path N D) : (T.remove p).Ok := by
  refine ⟨?_, ?_, ?_, ?_, ok.nodup.filter _⟩
  · simp [ok.nonempty]
  · intro x d hx
    obtain ⟨hx, hs⟩ := (mem_remove _).mp hx
    refine (ok.parent x d hx).imp id fun hd => (mem_remove _).mpr ⟨hd, fun h => hs ?_⟩
    exact h.trans (List.suffix_cons x d)
  · exact fun e he => ok.fresh e ((mem_remove e).mp he).1
  · intro x y d hx hy
    exact ok.names x y d ((mem_remove _).mp hx).1 ((mem_remove _).mp hy).1

end Tree

end ProcTree
