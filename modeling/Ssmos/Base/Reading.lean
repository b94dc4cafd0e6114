/-
Code that reads: what it returns, and which reads it makes on the way. A read
is any record of what was looked at; `Returns` bounds them by a set, and its
rules follow the code, one for each way to compose it.
-/
import Mathlib.Data.Set.Basic

namespace Ssmos

/-- A computation that may stop with an error, with the reads so far, latest
first. -/
abbrev Reading (ι ε : Type) := StateT (List ι) (Except ε)

namespace Reading

variable {ι ε α β : Type} {p : Reading ι ε α} {f : α → Reading ι ε β} {a : α} {b : β} {i : ι}
  {S T : Set ι}

/-- A read of `i`, which finds `a`. -/
def read (i : ι) (a : α) : Reading ι ε α := fun reads => .ok (a, i :: reads)

/-- `p` returns `a`, and its reads are all in `S`. -/
def Returns (p : Reading ι ε α) (a : α) (S : Set ι) : Prop :=
  ∀ reads, ∃ new, p reads = .ok (a, new ++ reads) ∧ ∀ i ∈ new, i ∈ S

namespace Returns

theorem pure (a : α) : Returns (pure a : Reading ι ε α) a S := fun _ => ⟨[], rfl, by simp⟩

theorem read (h : i ∈ S) (a : α) : Returns (Reading.read i a : Reading ι ε α) a S :=
  fun _ => ⟨[i], rfl, by simpa using h⟩

theorem bind (hp : Returns p a S) (hf : Returns (f a) b S) : Returns (p >>= f) b S := by
  intro reads
  obtain ⟨new, hnew, hs⟩ := hp reads
  obtain ⟨new', hnew', hs'⟩ := hf (new ++ reads)
  refine ⟨new' ++ new, ?_, fun i hi => (List.mem_append.mp hi).elim (hs' i) (hs i)⟩
  change (p reads >>= fun r => f r.1 r.2) = _
  rw [hnew, List.append_assoc]
  exact hnew'

theorem mono (hp : Returns p a S) (h : S ⊆ T) : Returns p a T := fun reads => by
  obtain ⟨new, hnew, hs⟩ := hp reads
  exact ⟨new, hnew, fun i hi => h (hs i hi)⟩

end Returns

end Reading

end Ssmos
