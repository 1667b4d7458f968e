import Descent.Value.Dict
import Mathlib.Data.List.Induction
import Mathlib.Data.List.Nodup

/-!
# Dictionaries with texts for keys

The entries that a list of pairs leaves when all keys are texts: each key once, in the
order of first occurrences, and with the value of the last pair that has the key.
-/

namespace Descent

namespace Value

/-- A pair with a text for its key, as an entry. -/
def textEntry (m : Text × Value) : Value × Value := (.str m.1, m.2)

/-- The entries with the key set to the value. -/
def setText (k : Text) (v : Value) : List (Text × Value) → List (Text × Value)
  | [] => [(k, v)]
  | (l, w) :: entries => if l = k then (l, v) :: entries else (l, w) :: setText k v entries

/-- The entries after setting each pair in turn. -/
def textEntries (pairs : List (Text × Value)) : List (Text × Value) :=
  pairs.foldl (fun entries m => setText m.1 m.2 entries) []

@[simp] theorem textEntries_nil : textEntries [] = [] := rfl

theorem textEntries_concat (pairs : List (Text × Value)) (m : Text × Value) :
    textEntries (pairs ++ [m]) = setText m.1 m.2 (textEntries pairs) := by
  simp [textEntries]

theorem insert_str (k : Text) (v : Value) (entries : List (Text × Value)) :
    insert (.str k) v (entries.map textEntry) = (setText k v entries).map textEntry := by
  induction entries with
  | nil => rfl
  | cons e entries ih =>
      obtain ⟨l, w⟩ := e
      rw [List.map_cons, textEntry, insert, sameKey_str, setText]
      by_cases h : l = k
      · rw [if_pos (decide_eq_true h), if_pos h]
        rfl
      · rw [if_neg (by simpa using h), if_neg h, ih]
        rfl

theorem entriesOfPairs_textEntry (pairs : List (Text × Value)) :
    entriesOfPairs (pairs.map textEntry) = (textEntries pairs).map textEntry := by
  induction pairs using List.reverseRecOn with
  | nil => rfl
  | append_singleton pairs m ih =>
      rw [List.map_append, List.map_singleton, textEntry, entriesOfPairs_concat, ih, insert_str,
        textEntries_concat]

theorem keys_setText (k : Text) (v : Value) (entries : List (Text × Value)) :
    (setText k v entries).map Prod.fst =
      if k ∈ entries.map Prod.fst then entries.map Prod.fst else entries.map Prod.fst ++ [k] := by
  induction entries with
  | nil => rfl
  | cons e entries ih =>
      obtain ⟨l, w⟩ := e
      by_cases h : l = k
      · simp [setText, h]
      · by_cases hmem : k ∈ entries.map Prod.fst <;> simp_all [setText, Ne.symm h]

theorem lookup_cons (l : Text) (e : Text × Value) (entries : List (Text × Value)) :
    (e :: entries).lookup l = if l = e.1 then some e.2 else entries.lookup l := by
  rw [List.lookup_cons]
  by_cases h : l = e.1
  · rw [if_pos h, beq_iff_eq.2 h]
  · rw [if_neg h, beq_false_of_ne h]

theorem lookup_setText (k : Text) (v : Value) (entries : List (Text × Value)) (l : Text) :
    (setText k v entries).lookup l = if l = k then some v else entries.lookup l := by
  induction entries with
  | nil => rw [setText, lookup_cons]
  | cons e entries ih =>
      obtain ⟨j, w⟩ := e
      by_cases hj : j = k
      · rw [setText, if_pos hj, lookup_cons, lookup_cons, hj]
        by_cases h : l = k
        · rw [if_pos h, if_pos h]
        · rw [if_neg h, if_neg h, if_neg h]
      · rw [setText, if_neg hj, lookup_cons, lookup_cons, ih]
        by_cases h : l = j
        · have hne : l ≠ k := h ▸ hj
          rw [if_pos h, if_neg hne, if_pos h]
        · rw [if_neg h, if_neg h]

/-- The keys of the entries are the distinct keys in the order of first occurrences. -/
theorem keys_textEntries (pairs : List (Text × Value)) :
    (textEntries pairs).map Prod.fst = (pairs.map Prod.fst).eraseDups := by
  induction pairs using List.reverseRecOn with
  | nil => rfl
  | append_singleton pairs m ih =>
      rw [textEntries_concat, keys_setText, ih, List.map_append, List.map_singleton,
        List.eraseDups_append]
      by_cases h : m.1 ∈ pairs.map Prod.fst
      · simp [List.removeAll, h]
      · simp [List.removeAll, h, List.eraseDups_cons]

theorem nodup_keys_textEntries (pairs : List (Text × Value)) :
    ((textEntries pairs).map Prod.fst).Nodup := by
  induction pairs using List.reverseRecOn with
  | nil => exact List.nodup_nil
  | append_singleton pairs m ih =>
      rw [textEntries_concat, keys_setText]
      split_ifs with h
      · exact ih
      · rw [← List.concat_eq_append]
        exact ih.concat h

/-- The value of each key is that of the last pair that has it. -/
theorem lookup_textEntries (pairs : List (Text × Value)) (k : Text) :
    (textEntries pairs).lookup k = pairs.reverse.lookup k := by
  induction pairs using List.reverseRecOn with
  | nil => rfl
  | append_singleton pairs m ih =>
      rw [textEntries_concat, lookup_setText, ih, List.reverse_append, List.reverse_singleton,
        List.singleton_append, lookup_cons]

/-- The entries have the distinct keys of the pairs, each once and in the order of first
occurrences, and each key has the value of the last pair with it. -/
structure IsDictOf (pairs entries : List (Text × Value)) : Prop where
  nodup : (entries.map Prod.fst).Nodup
  keys : entries.map Prod.fst = (pairs.map Prod.fst).eraseDups
  lookup : ∀ k, entries.lookup k = pairs.reverse.lookup k

theorem isDictOf_textEntries (pairs : List (Text × Value)) :
    IsDictOf pairs (textEntries pairs) where
  nodup := nodup_keys_textEntries pairs
  keys := keys_textEntries pairs
  lookup := lookup_textEntries pairs

end Value

end Descent
