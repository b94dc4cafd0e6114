/-
Doubly linked lists over any type of addresses: `Seg f a z ps` says that the
nodes at `ps` are linked in order in the node map `f`, the first one back to
`a` and the last one on to `z`. Swapping the two links reverses a list, so a
fact about walking one way is one about walking the other.
-/

namespace Ssmos

structure Node (ι α : Type) where
  value : α
  next : ι
  prev : ι
  deriving DecidableEq, Repr

variable {ι α : Type}

/-- The node read backwards. -/
def Node.swap (n : Node ι α) : Node ι α := ⟨n.value, n.prev, n.next⟩

@[simp] theorem Node.swap_next (n : Node ι α) : n.swap.next = n.prev := rfl
@[simp] theorem Node.swap_prev (n : Node ι α) : n.swap.prev = n.next := rfl

def Seg (f : ι → Node ι α) : ι → ι → List ι → Prop
  | _, _, [] => True
  | a, z, p :: ps => (f p).prev = a ∧ (f p).next = ps.headD z ∧ Seg f p z ps

theorem headD_append (xs ys : List ι) (z : ι) : (xs ++ ys).headD z = xs.headD (ys.headD z) := by
  cases xs <;> rfl

theorem getLastD_append (xs ys : List ι) (a : ι) : (xs ++ ys).getLastD a = ys.getLastD (xs.getLastD a) := by
  induction xs generalizing a with
  | nil => rfl
  | cons x xs ih => simp only [List.cons_append, List.getLastD_cons, ih]

theorem getLastD_reverse (xs : List ι) (a : ι) : xs.reverse.getLastD a = xs.headD a := by
  cases xs with
  | nil => rfl
  | cons x xs => simp

namespace Seg

variable {f f' : ι → Node ι α} {a a' z z' : ι} {ps xs ys : List ι}

theorem append : Seg f a z (xs ++ ys) ↔ Seg f a (ys.headD z) xs ∧ Seg f (xs.getLastD a) z ys := by
  induction xs generalizing a with
  | nil => simp [Seg]
  | cons x xs ih => simp only [List.cons_append, Seg, headD_append, ih, List.getLastD_cons, and_assoc]

theorem swap (h : Seg f a z ps) : Seg (fun p => (f p).swap) z a ps.reverse := by
  induction ps generalizing a with
  | nil => trivial
  | cons p ps ih =>
    rw [List.reverse_cons, append, getLastD_reverse]
    exact ⟨ih h.2.2, h.2.1, h.1, trivial⟩

theorem congr (h : Seg f a z ps) (hf : ∀ p ∈ ps, f' p = f p) : Seg f' a z ps := by
  induction ps generalizing a with
  | nil => trivial
  | cons p ps ih =>
    have hp := hf p (by simp)
    exact ⟨hp ▸ h.1, hp ▸ h.2.1, ih h.2.2 fun q hq => hf q (by simp [hq])⟩

/-- The first node linked back to `a'`. -/
theorem relinkPrev (h : Seg f a z ps) (hf : ∀ p ∈ ps.tail, f' p = f p)
    (hhead : ∀ p ∈ ps.head?, (f' p).prev = a' ∧ (f' p).next = (f p).next) : Seg f' a' z ps := by
  cases ps with
  | nil => trivial
  | cons p ps =>
    obtain ⟨hprev, hnext⟩ := hhead p rfl
    exact ⟨hprev, hnext.trans h.2.1, h.2.2.congr hf⟩

/-- The last node linked on to `z'`. -/
theorem relinkNext (h : Seg f a z ps) (hf : ∀ p ∈ ps.dropLast, f' p = f p)
    (hlast : ∀ p ∈ ps.getLast?, (f' p).next = z' ∧ (f' p).prev = (f p).prev) : Seg f' a z' ps := by
  rcases List.eq_nil_or_concat ps with rfl | ⟨xs, p, rfl⟩
  · trivial
  · simp only [List.concat_eq_append, List.dropLast_concat, List.getLast?_concat, Option.mem_some_iff,
      forall_eq'] at h hf hlast ⊢
    obtain ⟨hxs, hp⟩ := append.mp h
    exact append.mpr ⟨hxs.congr hf, hlast.2.trans hp.1, hlast.1, trivial⟩

/-- A node inserted between two segments. -/
theorem insert {p : ι} (h : Seg f a z (xs ++ ys)) (hp : (f' p).prev = xs.getLastD a ∧ (f' p).next = ys.headD z)
    (hxs : ∀ q ∈ xs.dropLast, f' q = f q)
    (hlast : ∀ q ∈ xs.getLast?, (f' q).next = p ∧ (f' q).prev = (f q).prev)
    (hys : ∀ q ∈ ys.tail, f' q = f q)
    (hhead : ∀ q ∈ ys.head?, (f' q).prev = p ∧ (f' q).next = (f q).next) :
    Seg f' a z (xs ++ p :: ys) := by
  obtain ⟨h₁, h₂⟩ := append.mp h
  exact append.mpr ⟨h₁.relinkNext hxs hlast, hp.1, hp.2, h₂.relinkPrev hys hhead⟩

/-- A node spliced out. -/
theorem remove {p : ι} (h : Seg f a z (xs ++ p :: ys)) (hxs : ∀ q ∈ xs.dropLast, f' q = f q)
    (hlast : ∀ q ∈ xs.getLast?, (f' q).next = ys.headD z ∧ (f' q).prev = (f q).prev)
    (hys : ∀ q ∈ ys.tail, f' q = f q)
    (hhead : ∀ q ∈ ys.head?, (f' q).prev = xs.getLastD a ∧ (f' q).next = (f q).next) :
    Seg f' a z (xs ++ ys) := by
  obtain ⟨h₁, h₂⟩ := append.mp h
  exact append.mpr ⟨h₁.relinkNext hxs hlast, h₂.2.2.relinkPrev hys hhead⟩

end Seg

end Ssmos
