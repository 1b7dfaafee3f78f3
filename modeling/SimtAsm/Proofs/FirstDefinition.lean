import Mathlib.Data.List.Dedup
import Mathlib.Data.List.Induction
import SimtAsm.Proofs.LetterCase
import SimtAsm.Proofs.Lines
import SimtAsm.Proofs.Passes

namespace SimtAsm

open Std

namespace Text

theorem trim_trim (text : Text) : text.trim.trim = text.trim := by
  obtain ⟨_, _, _, _, _, first, last⟩ := exists_trim text
  cases empty : text.trim with
  | nil => rfl
  | cons c rest =>
    rw [empty] at first last
    have atLast := List.getLast?_eq_some_getLast (List.cons_ne_nil c rest)
    have kept := trim_append (List.forall_mem_nil _) (List.forall_mem_nil _) ⟨c, rfl, first c rfl⟩
      ⟨_, atLast, last _ atLast⟩
    rwa [List.nil_append, List.append_nil] at kept

/-- Texts are compared character by character. -/
theorem lt_of_compare {a b : Text} (less : compare a b = .lt) : a < b := by
  induction a generalizing b with
  | nil =>
    cases b with
    | nil => simp at less
    | cons d rest => exact List.nil_lt_cons d rest
  | cons c text ih =>
    cases b with
    | nil => simp at less
    | cons d rest =>
      rw [List.compare_cons_cons, Ordering.then_eq_lt] at less
      rw [List.cons_lt_cons_iff]
      rcases less with smaller | ⟨same, less⟩
      · exact Or.inl (compareOfLessAndEq_eq_lt.mp smaller)
      · exact Or.inr ⟨LawfulEqCmp.compare_eq_iff_eq.mp same, ih less⟩

end Text

namespace SymbolTable

theorem key_key (label : Text) : key (key label) = key label := by
  rw [key, key, Text.trim_upper, Text.trim_trim, Text.upper_upper]

/-- The table behind one definition of a run, whether it goes through or not. -/
def defineNext (table : SymbolTable) (call : Text × Nat) : SymbolTable := (table.define call.1 call.2).2

/-- The table behind a run of definitions that starts from the empty one. -/
def ofRun (calls : List (Text × Nat)) : SymbolTable := calls.foldl defineNext empty

theorem ofRun_concat (calls : List (Text × Nat)) (call : Text × Nat) :
    ofRun (calls ++ [call]) = (ofRun calls).defineNext call := by
  rw [ofRun, List.foldl_append]
  rfl

/-- One step of a run: a name that has an address keeps it, and only the name that is defined can get one. -/
theorem getElem?_defineNext (table : SymbolTable) (call : Text × Nat) (name : Text) :
    (table.defineNext call).addresses[name]? =
      table.addresses[name]?.or (if key call.1 = name then some call.2 else none) := by
  rcases defined : table.define call.1 call.2 with ⟨error | _, next⟩
  · obtain ⟨taken, _, rfl⟩ := define_eq_error_iff.mp defined
    rw [ExtTreeMap.mem_iff_isSome_getElem?, Option.isSome_iff_exists] at taken
    obtain ⟨address, taken⟩ := taken
    rw [defineNext, defined]
    by_cases own : key call.1 = name
    · subst own
      simp [taken]
    · simp [own]
  · have free : table.addresses[key call.1]? = none := (define_eq_ok_iff.mp defined).1
    rw [defineNext, defined, getElem?_of_define defined]
    by_cases own : key call.1 = name
    · subst own
      simp [free]
    · simp [own, Ne.symm own]

/-- After a run each name has the address of its first definition. -/
theorem getElem?_ofRun (calls : List (Text × Nat)) (name : Text) :
    (ofRun calls).addresses[name]? = (calls.find? fun call => key call.1 = name).map Prod.snd := by
  induction calls using List.reverseRecOn with
  | nil => simp [ofRun, empty]
  | append_singleton calls call ih =>
    rw [ofRun_concat, getElem?_defineNext, ih, List.find?_append, Option.map_or]
    congr 1
    by_cases own : key call.1 = name <;> simp [own]

theorem mem_addresses_ofRun {calls : List (Text × Nat)} {name : Text} :
    name ∈ (ofRun calls).addresses ↔ name ∈ calls.map fun call => key call.1 := by
  rw [ExtTreeMap.mem_iff_isSome_getElem?, getElem?_ofRun, Option.isSome_map, List.find?_isSome]
  simp

/-- Of the definitions of a name in a run, the first one has gone through. -/
theorem exists_defined_iff {calls : List (Text × Nat)} {name : Text} :
    (∃ (before : List (Text × Nat)) (call : Text × Nat) (after : List (Text × Nat)), calls = before ++ call :: after ∧
      key call.1 = name ∧ ((ofRun before).define call.1 call.2).1 = .ok ()) ↔
      name ∈ calls.map fun call => key call.1 := by
  constructor
  · rintro ⟨before, call, after, rfl, rfl, _⟩
    simp
  · intro member
    rw [← mem_addresses_ofRun, ExtTreeMap.mem_iff_isSome_getElem?, getElem?_ofRun, Option.isSome_map,
      Option.isSome_iff_exists] at member
    obtain ⟨call, found⟩ := member
    obtain ⟨own, before, after, rfl, others⟩ := List.find?_eq_some_iff_append.mp found
    have own : key call.1 = name := of_decide_eq_true own
    have fresh : (ofRun before).get? call.1 = none := by
      rw [get?, getElem?_ofRun, Option.map_eq_none_iff, List.find?_eq_none]
      intro earlier inBefore same
      have differs := others earlier inBefore
      rw [← own] at differs
      simp [of_decide_eq_true same] at differs
    exact ⟨before, call, after, rfl, own, congrArg Prod.fst (define_of_fresh fresh call.2)⟩

theorem exists_define_error_iff {table : SymbolTable} {label : Text} {address : Nat} :
    (∃ error, (table.define label address).1 = .error error) ↔ key label ∈ table.addresses := by
  rw [define]
  split <;> simp [*]

/-- The names of a table are listed in ascending order, so that each of them is listed once. -/
theorem pairwise_toList (table : SymbolTable) : table.toList.Pairwise fun first second => first.1 < second.1 :=
  ExtTreeMap.ordered_keys_toList.imp Text.lt_of_compare

theorem size_ofRun (calls : List (Text × Nat)) :
    (ofRun calls).size = (calls.map fun call => key call.1).dedup.length := by
  have sameNames : (ofRun calls).addresses.keys.Perm (calls.map fun call => key call.1).dedup := by
    rw [List.perm_ext_iff_of_nodup ExtTreeMap.nodup_keys (List.nodup_dedup _)]
    intro name
    rw [ExtTreeMap.mem_keys, mem_addresses_ofRun, List.mem_dedup]
  rw [size, ← ExtTreeMap.length_keys, sameNames.length_eq]

theorem key_of_mem_ofRun {calls : List (Text × Nat)} {name : Text} (member : name ∈ (ofRun calls).addresses) :
    key name = name := by
  obtain ⟨call, _, rfl⟩ := List.mem_map.mp (mem_addresses_ofRun.mp member)
  exact key_key call.1

/-- A symbol table is a finite map in which the first definition of a name wins, after every run of definitions. A
definition is refused just when an earlier one of the same name went through; it then reports its label as written and
leaves the table as it is. A label has the address of the first definition of its name. As many names are kept as were
defined, they are listed once each in ascending order, and every one of them stands for itself. -/
theorem ofRun_first_wins (calls : List (Text × Nat)) :
    (∀ label address, (∃ error, ((ofRun calls).define label address).1 = .error error) ↔
      ∃ (before : List (Text × Nat)) (call : Text × Nat) (after : List (Text × Nat)), calls = before ++ call :: after ∧
        key call.1 = key label ∧ ((ofRun before).define call.1 call.2).1 = .ok ()) ∧
      (∀ label address error, ((ofRun calls).define label address).1 = .error error →
        error = ⟨label.trim⟩ ∧ ((ofRun calls).define label address).2 = ofRun calls ∧
        ofRun (calls ++ [(label, address)]) = ofRun calls) ∧
      (∀ label, (ofRun calls).get? label = (calls.find? fun call => key call.1 = key label).map Prod.snd) ∧
      (ofRun calls).size = (calls.map fun call => key call.1).dedup.length ∧
      (ofRun calls).toList.Pairwise (fun first second => first.1 < second.1) ∧
      (∀ name address, (name, address) ∈ (ofRun calls).toList ↔
        (calls.find? fun call => key call.1 = name).map Prod.snd = some address) ∧
      ∀ name address, (name, address) ∈ (ofRun calls).toList →
        key name = name ∧ (ofRun calls).get? name = some address := by
  refine ⟨?_, ?_, fun label => getElem?_ofRun calls _, size_ofRun calls, pairwise_toList _, ?_, ?_⟩
  · intro label address
    rw [exists_define_error_iff, mem_addresses_ofRun, exists_defined_iff]
  · intro label address error refused
    obtain ⟨_, same, unchanged⟩ := define_eq_error_iff.mp (Prod.ext refused rfl)
    exact ⟨same, unchanged, (ofRun_concat ..).trans unchanged⟩
  · intro name address
    rw [mem_toList, getElem?_ofRun]
  · intro name address listed
    rw [mem_toList] at listed
    have known : name ∈ (ofRun calls).addresses := by
      rw [ExtTreeMap.mem_iff_isSome_getElem?, listed]
      rfl
    have own := key_of_mem_ofRun known
    refine ⟨own, ?_⟩
    rw [get?, own]
    exact listed

end SymbolTable

end SimtAsm
