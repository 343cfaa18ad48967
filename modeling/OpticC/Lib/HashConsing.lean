import Mathlib.Algebra.Ring.Int.Defs
import Mathlib.Algebra.Ring.Nat
import Mathlib.Data.List.Basic
import Mathlib.Tactic.Common

/-! Tables with a cache by key. Entries without a key may change; what the cache knows stays
where it is. -/

namespace HashConsing

variable {α κ : Type*} [BEq κ] {key : α → Option κ} {entries : List α}
  {cache : List (κ × ℕ)}

/-- Every id of the cache is that of an entry with the key. -/
def Sound (key : α → Option κ) (entries : List α) (cache : List (κ × ℕ)) : Prop :=
  ∀ k id, cache.lookup k = some id → ∃ a, entries[id]? = some a ∧ key a = some k

theorem Sound.lt {k : κ} {id : ℕ} (h : Sound key entries cache) (hk : cache.lookup k = some id) :
    id < entries.length := by
  obtain ⟨a, ha, -⟩ := h k id hk
  exact (List.getElem?_eq_some_iff.1 ha).1

theorem Sound.append (h : Sound key entries cache) (more : List α) :
    Sound key (entries ++ more) cache := by
  intro k id hk
  obtain ⟨a, ha, hkey⟩ := h k id hk
  refine ⟨a, ?_, hkey⟩
  rw [List.getElem?_append_left (h.lt hk)]
  exact ha

theorem Sound.insert [LawfulBEq κ] {a : α} {k : κ} (h : Sound key entries cache) (hk : key a = some k) :
    Sound key (entries ++ [a]) ((k, entries.length) :: cache) := by
  intro k' id hid
  rw [List.lookup_cons] at hid
  cases hsame : k' == k with
  | true =>
    rw [hsame] at hid
    obtain rfl : entries.length = id := Option.some.inj hid
    refine ⟨a, List.getElem?_concat_length, ?_⟩
    rw [hk, eq_of_beq hsame]
  | false =>
    rw [hsame] at hid
    exact h.append [a] k' id hid

theorem Sound.modify {f : α → α} (h : Sound key entries cache)
    (hf : ∀ a k, key a = some k → f a = a) (i : ℕ) : Sound key (entries.modify i f) cache := by
  intro k id hk
  obtain ⟨a, ha, hkey⟩ := h k id hk
  refine ⟨a, ?_, hkey⟩
  rw [List.getElem?_modify, ha]
  split_ifs
  · rw [Option.map_eq_map, Option.map_some, hf a k hkey]
  · rfl

/-- Where keys tell entries apart, a hit is the entry itself. -/
theorem Sound.hit {a : α} {k : κ} {id : ℕ} (h : Sound key entries cache)
    (hinj : ∀ b, key b = some k → b = a) (hk : cache.lookup k = some id) :
    entries[id]? = some a := by
  obtain ⟨b, hb, hkey⟩ := h k id hk
  rw [hb, hinj b hkey]

end HashConsing
