/-
What a piece of code does to objects that can be released, as a list of
events: it reads an object, writes it or frees it. `Safe` says that nothing
happens to an object once it is freed.
-/
import Mathlib.Data.List.Nodup

namespace Ssmos

inductive Touch (ι : Type)
  | read (p : ι)
  | write (p : ι)
  | free (p : ι)
  deriving DecidableEq, Repr

namespace Touch

variable {ι : Type} {t u : List (Touch ι)} {p : ι}

/-- The object an event is about. -/
def object : Touch ι → ι
  | read p | write p | free p => p

def freed? : Touch ι → Option ι
  | free p => some p
  | read _ | write _ => none

theorem freed?_eq_some {a : Touch ι} : a.freed? = some p ↔ a = free p := by
  cases a <;> simp [freed?]

/-- The objects freed, in order. -/
def freed (t : List (Touch ι)) : List ι := t.filterMap freed?

@[simp] theorem freed_nil : freed ([] : List (Touch ι)) = [] := rfl

@[simp] theorem freed_append : freed (t ++ u) = freed t ++ freed u := List.filterMap_append

@[simp] theorem freed_read : freed (read p :: t) = freed t := rfl
@[simp] theorem freed_write : freed (write p :: t) = freed t := rfl
@[simp] theorem freed_free : freed (free p :: t) = p :: freed t := rfl

theorem mem_freed : p ∈ freed t ↔ free p ∈ t := by
  simp [freed, freed?_eq_some]

/-- No event is about an object freed before it. -/
def Safe (t : List (Touch ι)) : Prop := t.Pairwise fun a b => ∀ p, a = free p → b.object ≠ p

namespace Safe

/-- What frees nothing is safe. -/
theorem of_freed_nil (h : freed t = []) : Safe t :=
  List.pairwise_of_forall_mem_list fun a ha b _ p hp => by
    have := mem_freed.mpr (hp ▸ ha)
    simp [h] at this

theorem append (ht : Safe t) (hu : Safe u) (h : ∀ p ∈ freed t, ∀ b ∈ u, b.object ≠ p) : Safe (t ++ u) :=
  List.pairwise_append.mpr ⟨ht, hu, fun _ ha b hb p hp => h p (mem_freed.mpr (hp ▸ ha)) b hb⟩

/-- What comes before a last free. -/
theorem concat_free (h : freed t = []) : Safe (t ++ [free p]) :=
  (of_freed_nil h).append (List.pairwise_singleton _ _) (by simp [h])

/-- Nothing is freed twice. -/
theorem nodup (h : Safe t) : (freed t).Nodup :=
  List.pairwise_filterMap.mpr (h.imp fun hab p hp q hq he =>
    hab p (freed?_eq_some.mp hp) (by rw [freed?_eq_some.mp hq]; exact he.symm))

end Safe

end Touch

end Ssmos
