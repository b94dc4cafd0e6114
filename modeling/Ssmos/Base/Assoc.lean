/-
Association lists whose entries know their own key: lookup is the first entry
with the key, whatever the entries hold besides.
-/
import Mathlib.Data.List.Basic

namespace Ssmos

section

variable {α κ : Type} [DecidableEq κ] {key key' : α → κ} {l : List α} {k : κ} {a : α}

/-- The first entry with a key. -/
def lookup (key : α → κ) (l : List α) (k : κ) : Option α := l.find? fun a => key a = k

theorem lookup_cons : lookup key (a :: l) k = if key a = k then some a else lookup key l k := by
  simp only [lookup, List.find?_cons]
  split <;> simp_all

theorem lookup_mem (h : lookup key l k = some a) : a ∈ l := List.mem_of_find?_eq_some h

theorem lookup_key (h : lookup key l k = some a) : key a = k := by
  simpa using List.find?_some h

theorem lookup_eq_none : lookup key l k = none ↔ ∀ a ∈ l, key a ≠ k := by
  simp [lookup, List.find?_eq_none]

/-- With each key once, every entry is found. -/
theorem lookup_of_mem (hkeys : (l.map key).Nodup) (ha : a ∈ l) : lookup key l (key a) = some a := by
  induction l with
  | nil => cases ha
  | cons b l ih =>
    rw [List.map_cons, List.nodup_cons] at hkeys
    rw [lookup_cons]
    rcases List.mem_cons.mp ha with rfl | ha
    · rw [if_pos rfl]
    · have hb : key b ≠ key a := fun hb => hkeys.1 (hb ▸ List.mem_map_of_mem ha)
      rw [if_neg hb]
      exact ih hkeys.2 ha

/-- Only the keys of the entries matter. -/
theorem lookup_congr (h : ∀ a ∈ l, key a = key' a) : lookup key l k = lookup key' l k := by
  induction l with
  | nil => rfl
  | cons b l ih =>
    rw [lookup_cons, lookup_cons, h b List.mem_cons_self, ih fun a ha => h a (List.mem_cons_of_mem _ ha)]

theorem lookup_append_same (h : lookup key l (key a) = none) :
    lookup key (l ++ [a]) (key a) = some a := by
  rw [lookup] at h
  simp [lookup, List.find?_append, h]

theorem lookup_append_ne (h : key a ≠ k) : lookup key (l ++ [a]) k = lookup key l k := by
  simp [lookup, List.find?_append, h]

theorem lookup_map {β : Type} {f : β → α} {l : List β} :
    lookup key (l.map f) k = (lookup (key ∘ f) l k).map f := List.find?_map

end

/-! ## Books -/

/-- Give a key a value: in the entry that has the key, or in a new one at the end. -/
def assign {κ β : Type} [DecidableEq κ] (l : List (κ × β)) (k : κ) (b : β) : List (κ × β) :=
  if k ∈ l.map Prod.fst then l.map fun e => if e.1 = k then (e.1, b) else e else l ++ [(k, b)]

theorem assign_keys {κ β : Type} [DecidableEq κ] (l : List (κ × β)) (k : κ) (b : β) :
    (assign l k b).map Prod.fst = if k ∈ l.map Prod.fst then l.map Prod.fst else l.map Prod.fst ++ [k] := by
  unfold assign
  split
  · rw [List.map_map]
    refine List.map_congr_left fun e _ => ?_
    by_cases he : e.1 = k <;> simp [he]
  · simp

theorem mem_assign {κ β : Type} [DecidableEq κ] {l : List (κ × β)} {k : κ} {b : β} {e : κ × β}
    (h : e ∈ assign l k b) : e ∈ l ∨ e.2 = b := by
  unfold assign at h
  split at h
  · obtain ⟨e', he', rfl⟩ := List.mem_map.mp h
    split
    · exact .inr rfl
    · exact .inl he'
  · rcases List.mem_append.mp h with h | h
    · exact .inl h
    · exact .inr (congrArg Prod.snd (List.mem_singleton.mp h))

/-- Keys with their values, each key once, in the order the keys came. -/
structure Book (κ β : Type) where
  entries : List (κ × β)
  nodup : (entries.map Prod.fst).Nodup

namespace Book

variable {κ β : Type} [DecidableEq κ] {b : Book κ β} {k k' : κ} {v : β}

def empty : Book κ β := ⟨[], List.nodup_nil⟩

def find (b : Book κ β) (k : κ) : Option β := (lookup Prod.fst b.entries k).map Prod.snd

def define (b : Book κ β) (k : κ) (v : β) : Book κ β where
  entries := assign b.entries k v
  nodup := by
    rw [assign_keys]
    split
    next => exact b.nodup
    next hk =>
      rw [List.nodup_append]
      refine ⟨b.nodup, by simp, fun k₁ hk₁ k₂ hk₂ => ?_⟩
      rw [List.mem_singleton.mp hk₂]
      exact ne_of_mem_of_not_mem hk₁ hk

end Book

end Ssmos
