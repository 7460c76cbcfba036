import Mathlib.Data.List.Induction
import Mathlib.Data.List.Nodup
import Mathlib.Logic.Function.Basic

/-!
# Values grouped under keys

A program keeps one list for each key, enters a value by appending it to the list of its key, and
from then on addresses it by the key and the place it got in that list. `under` is the list of a
key after a sequence of entries, and `places` are the addresses, in the order of the entries. An
address leads back to its value, and no two are the same.
-/

namespace Lib

variable {K V : Type} [DecidableEq K]

/-! ## Places -/

/-- The keys, each with the number of times it came before, in `seen` or here. -/
def placesAfter (seen : List K) : List K → List (K × Nat)
  | [] => []
  | k :: rest => (k, seen.count k) :: placesAfter (seen ++ [k]) rest

/-- The addresses given out along a sequence of keys. -/
def places (keys : List K) : List (K × Nat) := placesAfter [] keys

theorem placesAfter_append (seen front back : List K) :
    placesAfter seen (front ++ back) = placesAfter seen front ++ placesAfter (seen ++ front) back := by
  induction front generalizing seen with
  | nil => simp [placesAfter]
  | cons k front ih => simp [placesAfter, ih]

theorem places_snoc (keys : List K) (k : K) : places (keys ++ [k]) = places keys ++ [(k, keys.count k)] := by
  rw [places, placesAfter_append]
  simp [places, placesAfter]

@[simp] theorem map_fst_places (keys : List K) : (places keys).map (·.1) = keys := by
  induction keys using List.reverseRecOn with
  | nil => rfl
  | append_singleton keys k ih => simp [places_snoc, ih]

@[simp] theorem length_places (keys : List K) : (places keys).length = keys.length := by
  have length := congrArg List.length (map_fst_places keys)
  rwa [List.length_map] at length

/-- Every entry has an address. -/
theorem exists_place {keys : List K} {i : Nat} {k : K} (here : keys[i]? = some k) :
    ∃ place, (places keys)[i]? = some (k, place) := by
  rw [← map_fst_places keys, List.getElem?_map, Option.map_eq_some_iff] at here
  obtain ⟨⟨_, place⟩, found, rfl⟩ := here
  exact ⟨place, found⟩

/-- A place is below the number of entries of its key. -/
theorem lt_count_of_mem_places {keys : List K} {k : K} {place : Nat} (mem : (k, place) ∈ places keys) :
    place < keys.count k := by
  induction keys using List.reverseRecOn with
  | nil => cases mem
  | append_singleton keys last ih =>
    rw [places_snoc, List.mem_append, List.mem_singleton] at mem
    rw [List.count_append]
    obtain before | eq := mem
    · exact Nat.lt_add_right _ (ih before)
    · cases eq
      simp

/-- The addresses of a key are its places in order. -/
theorem mem_places {keys : List K} {k : K} {place : Nat} : (k, place) ∈ places keys ↔ place < keys.count k := by
  constructor
  · exact lt_count_of_mem_places
  · intro lt
    induction keys using List.reverseRecOn with
    | nil => cases lt
    | append_singleton keys last ih =>
      rw [places_snoc, List.mem_append, List.mem_singleton]
      by_cases before : place < keys.count k
      · exact .inl (ih before)
      · right
        by_cases same : k = last
        · subst same
          rw [List.count_append, List.count_singleton_self] at lt
          rw [show place = keys.count k by omega]
        · rw [List.count_append, List.count_singleton] at lt
          simp [Ne.symm same] at lt
          omega

/-- **Addresses are distinct.** -/
theorem nodup_places (keys : List K) : (places keys).Nodup := by
  induction keys using List.reverseRecOn with
  | nil => exact List.nodup_nil
  | append_singleton keys k ih =>
    rw [places_snoc]
    refine List.nodup_append.2 ⟨ih, List.nodup_singleton _, fun address mem last eq same => ?_⟩
    obtain rfl := List.mem_singleton.1 eq
    exact Nat.lt_irrefl _ (lt_count_of_mem_places (same ▸ mem))

/-! ## Values -/

/-- The values entered under a key, oldest first. -/
def under (entered : List (K × V)) (k : K) : List V := (entered.filter fun e => e.1 = k).map (·.2)

theorem under_append (front back : List (K × V)) (k : K) : under (front ++ back) k = under front k ++ under back k := by
  simp [under]

theorem length_under (entered : List (K × V)) (k : K) : (under entered k).length = (entered.map (·.1)).count k := by
  induction entered with
  | nil => rfl
  | cons e entered ih =>
    rw [show e :: entered = [e] ++ entered from rfl, under_append, List.length_append, ih, List.map_append,
      List.count_append]
    by_cases here : e.1 = k <;> simp [under, here]

/-- **An address leads to its value.** -/
theorem under_places (entered : List (K × V)) {i : Nat} {k : K} {v : V} {place : Nat} (value : entered[i]? = some (k, v))
    (address : (places (entered.map (·.1)))[i]? = some (k, place)) : (under entered k)[place]? = some v := by
  induction entered using List.reverseRecOn with
  | nil => cases value
  | append_singleton entered last ih =>
    rw [List.map_append, List.map_singleton, places_snoc] at address
    rw [under_append]
    obtain inside | rfl | past := Nat.lt_trichotomy i entered.length
    · rw [List.getElem?_append_left inside] at value
      rw [List.getElem?_append_left (by simpa using inside)] at address
      have found := ih value address
      rw [List.getElem?_append_left (List.getElem?_eq_some_iff.1 found).1]
      exact found
    · rw [List.getElem?_concat_length] at value
      rw [List.getElem?_append_right (by simp)] at address
      simp only [length_places, List.length_map, Nat.sub_self, List.getElem?_cons_zero] at address
      cases value
      cases address
      rw [← length_under, List.getElem?_append_right (Nat.le_refl _), Nat.sub_self]
      simp [under]
    · rw [List.getElem?_eq_none (by rw [List.length_append, List.length_singleton]; omega)] at value
      cases value

/-! ## Tables of lists -/

/-- The table holds the lists of a sequence of entries, and none for a key nothing was entered under. -/
def Grouped (table : K → Option (List V)) (entered : List (K × V)) : Prop :=
  ∀ k, table k = if under entered k = [] then none else some (under entered k)

theorem Grouped.empty : Grouped (fun _ => none : K → Option (List V)) [] := fun _ => rfl

theorem Grouped.getD {table : K → Option (List V)} {entered : List (K × V)} (h : Grouped table entered) (k : K) :
    (table k).getD [] = under entered k := by
  rw [h k]
  split
  · rename_i none
    exact none.symm
  · rfl

/-- One more value is entered. -/
theorem Grouped.enter {table : K → Option (List V)} {entered : List (K × V)} (h : Grouped table entered) (k : K) (v : V) :
    Grouped (Function.update table k (some ((table k).getD [] ++ [v]))) (entered ++ [(k, v)]) := by
  intro other
  rw [h.getD, under_append]
  by_cases here : other = k
  · subst here
    simp [under]
  · have apart : under [(k, v)] other = [] := by simp [under, Ne.symm here]
    rw [Function.update_of_ne here, apart, List.append_nil]
    exact h other

/-- The table leads from the address of a value to the value. -/
theorem Grouped.find {table : K → Option (List V)} {entered : List (K × V)} (h : Grouped table entered) {i : Nat} {k : K}
    {v : V} {place : Nat} (value : entered[i]? = some (k, v))
    (address : (places (entered.map (·.1)))[i]? = some (k, place)) :
    ∃ values, table k = some values ∧ values[place]? = some v := by
  have found := under_places entered value address
  refine ⟨under entered k, ?_, found⟩
  rw [h k, if_neg]
  intro none
  rw [none] at found
  cases found

/-- What a table has at an address. -/
def entryAt (table : K → Option (List V)) (address : K × Nat) : Option V := ((table address.1).getD [])[address.2]?

omit [DecidableEq K] in
theorem entryAt_lt {table : K → Option (List V)} {k : K} {i : Nat} {v : V} (found : entryAt table (k, i) = some v) :
    i < ((table k).getD []).length := by
  have inside : ((table k).getD [])[i]? = some v := found
  exact (List.getElem?_eq_some_iff.1 inside).1

/-- An entered value has the address behind those of its key. -/
theorem entryAt_enter (table : K → Option (List V)) (k : K) (v : V) :
    entryAt (Function.update table k (some ((table k).getD [] ++ [v]))) =
      Function.update (entryAt table) (k, ((table k).getD []).length) (some v) := by
  funext ⟨other, i⟩
  by_cases key : other = k
  · subst key
    by_cases last : i = ((table other).getD []).length
    · subst last
      rw [Function.update_self]
      simp [entryAt]
    · rw [Function.update_of_ne (fun eq => last (congrArg Prod.snd eq))]
      simp only [entryAt, Function.update_self, Option.getD_some]
      rw [List.getElem?_append]
      grind
  · rw [Function.update_of_ne (fun eq => key (congrArg Prod.fst eq))]
    simp only [entryAt, Function.update_of_ne key]

/-- A value put in the place of another. -/
theorem entryAt_set {table : K → Option (List V)} {k : K} {i : Nat} {w : V} (found : entryAt table (k, i) = some w) (v : V) :
    entryAt (Function.update table k (some (((table k).getD []).set i v))) =
      Function.update (entryAt table) (k, i) (some v) := by
  have inside := entryAt_lt found
  funext ⟨other, j⟩
  by_cases key : other = k
  · subst key
    simp only [entryAt, Function.update_self, Option.getD_some]
    by_cases same : j = i
    · subst same
      rw [Function.update_self, List.getElem?_set_self inside]
    · rw [Function.update_of_ne (fun eq => same (congrArg Prod.snd eq)), List.getElem?_set_ne (Ne.symm same)]
      rfl
  · rw [Function.update_of_ne (fun eq => key (congrArg Prod.fst eq))]
    simp only [entryAt, Function.update_of_ne key]

end Lib
