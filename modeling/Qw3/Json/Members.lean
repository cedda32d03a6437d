import Mathlib.Tactic
import Qw3.Json.Value

/-!
# The members of an object

Looking up and replacing a member of an object that `ofMembers` builds.
-/

namespace Qw3.Json

variable {key k : String} {v w : Json} {members : List (String × Json)}

@[simp] theorem lookup_insertMember_self (key : String) (v : Json)
    (members : List (String × Json)) : (insertMember key v members).lookup key = some v := by
  induction members with
  | nil => simp [insertMember]
  | cons m members ih =>
    rw [insertMember]
    split
    next => simp
    next =>
      split
      next => simp
      next hne =>
        have hbeq : (key == m.1) = false := beq_eq_false_iff_ne.mpr hne
        rw [List.lookup_cons, hbeq, ih]

theorem lookup_insertMember_of_ne (hne : key ≠ k) (v : Json) (members : List (String × Json)) :
    (insertMember k v members).lookup key = members.lookup key := by
  have hbeq : (key == k) = false := beq_eq_false_iff_ne.mpr hne
  induction members with
  | nil => simp [insertMember, List.lookup_cons, hbeq]
  | cons m members ih =>
    rw [insertMember]
    split
    next => rw [List.lookup_cons, hbeq]
    next =>
      split
      next heq =>
        rw [List.lookup_cons, List.lookup_cons, hbeq, ← heq, hbeq]
      next => rw [List.lookup_cons, List.lookup_cons, ih]

@[simp] theorem replaceMember_insertMember_self (key : String) (v w : Json)
    (members : List (String × Json)) :
    replaceMember key w (insertMember key v members) = insertMember key w members := by
  induction members with
  | nil => simp [insertMember, replaceMember]
  | cons m members ih =>
    rw [insertMember, insertMember]
    split
    next => simp [replaceMember]
    next =>
      split
      next => simp [replaceMember]
      next hne => rw [replaceMember, if_neg (Ne.symm hne), ih]

theorem replaceMember_insertMember_of_ne (hne : key ≠ k) (v w : Json)
    (members : List (String × Json)) :
    replaceMember key w (insertMember k v members) =
      insertMember k v (replaceMember key w members) := by
  induction members with
  | nil => simp [insertMember, replaceMember, hne.symm]
  | cons m members ih =>
    obtain ⟨l, x⟩ := m
    by_cases hl : l = key
    · subst hl
      rw [replaceMember, if_pos rfl, insertMember, insertMember]
      dsimp only
      split
      next => rw [replaceMember, if_neg hne.symm, replaceMember, if_pos rfl]
      next => rw [if_neg hne.symm, if_neg hne.symm, replaceMember, if_pos rfl]
    · rw [replaceMember, if_neg hl, insertMember, insertMember]
      dsimp only
      split
      next => rw [replaceMember, if_neg hne.symm, replaceMember, if_neg hl]
      next =>
        split
        next => rw [replaceMember, if_neg hne.symm]
        next => rw [replaceMember, if_neg hl, ih]

theorem lookup_replaceMember_of_ne (hne : key ≠ k) (v : Json) (members : List (String × Json)) :
    (replaceMember k v members).lookup key = members.lookup key := by
  have hbeq : (key == k) = false := beq_eq_false_iff_ne.mpr hne
  induction members with
  | nil => rfl
  | cons m members ih =>
    rw [replaceMember]
    split
    next heq => rw [List.lookup_cons, List.lookup_cons, hbeq, heq, hbeq]
    next => rw [List.lookup_cons, List.lookup_cons, ih]

/-- Replacing a member by itself. -/
theorem replaceMember_lookup {key : String} {value : Json} {members : List (String × Json)}
    (h : members.lookup key = some value) : replaceMember key value members = members := by
  induction members with
  | nil => rfl
  | cons m members ih =>
    obtain ⟨k, x⟩ := m
    by_cases hk : key = k
    · subst hk
      have hx : x = value := by simpa [List.lookup_cons] using h
      simp [replaceMember, hx]
    · have hbeq : (key == k) = false := beq_eq_false_iff_ne.mpr hk
      rw [replaceMember, if_neg (Ne.symm hk), ih (by simpa [List.lookup_cons, hbeq] using h)]

/-- The members of an object one after the other: a later one replaces an earlier
one of the same key. -/
def insertMembers (start members : List (String × Json)) : List (String × Json) :=
  members.foldl (fun ms m => insertMember m.1 m.2 ms) start

theorem ofMembers_eq (members : List (String × Json)) :
    ofMembers members = object (insertMembers [] members) := rfl

theorem insertMembers_append (start xs ys : List (String × Json)) :
    insertMembers start (xs ++ ys) = insertMembers (insertMembers start xs) ys := by
  simp [insertMembers]

theorem lookup_insertMembers (hne : ∀ m ∈ members, m.1 ≠ key) (start : List (String × Json)) :
    (insertMembers start members).lookup key = start.lookup key := by
  induction members generalizing start with
  | nil => rfl
  | cons m members ih =>
    have hm := hne m List.mem_cons_self
    have hrest : ∀ n ∈ members, n.1 ≠ key := fun n hn => hne n (List.mem_cons_of_mem _ hn)
    calc (insertMembers start (m :: members)).lookup key
        = (insertMember m.1 m.2 start).lookup key := ih hrest _
      _ = start.lookup key := lookup_insertMember_of_ne hm.symm m.2 start

theorem replaceMember_insertMembers (hne : ∀ m ∈ members, m.1 ≠ key) (w : Json)
    (start : List (String × Json)) :
    replaceMember key w (insertMembers start members) =
      insertMembers (replaceMember key w start) members := by
  induction members generalizing start with
  | nil => rfl
  | cons m members ih =>
    have hm := hne m List.mem_cons_self
    have hrest : ∀ n ∈ members, n.1 ≠ key := fun n hn => hne n (List.mem_cons_of_mem _ hn)
    calc replaceMember key w (insertMembers start (m :: members))
        = insertMembers (replaceMember key w (insertMember m.1 m.2 start)) members := ih hrest _
      _ = insertMembers (replaceMember key w start) (m :: members) := by
        rw [replaceMember_insertMember_of_ne hm.symm]
        rfl

/-- The last member of a key is the one that is found. -/
theorem find?_ofMembers {before after : List (String × Json)} (hafter : ∀ m ∈ after, m.1 ≠ key) :
    (ofMembers (before ++ (key, v) :: after)).find? key = some v := by
  rw [ofMembers_eq, insertMembers_append, find?]
  exact (lookup_insertMembers hafter _).trans (lookup_insertMember_self key v _)

/-- Replacing the last member of a key. -/
theorem replaceMember_ofMembers {before after : List (String × Json)}
    (hafter : ∀ m ∈ after, m.1 ≠ key) :
    replaceMember key w (insertMembers [] (before ++ (key, v) :: after)) =
      insertMembers [] (before ++ (key, w) :: after) := by
  rw [insertMembers_append, insertMembers_append]
  refine (replaceMember_insertMembers hafter w _).trans ?_
  rw [replaceMember_insertMember_self]
  rfl

end Qw3.Json
