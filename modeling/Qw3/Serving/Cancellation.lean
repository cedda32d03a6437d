import Mathlib.Data.List.Nodup
import Mathlib.Data.List.Perm.Subperm
import Mathlib.Order.Lattice
import Qw3.Lib.Machine

/-!
# Cancellation of requests

`request_cancellation.hpp` and the handler of the server that cancels.  Requests begin,
share their lease, drop it and are cancelled in any order; the lease is built after the
registry is unlocked, and its last reference goes before its destructor stores `completed`.

* `Registry.begin`, `Registry.cancel` — the source's.
* `machine` — the threads of the requests and of the handler.
* `Registry.Sound` — a request that has not completed is the one its identifier names.
* `live_registered` — **a live request is never forgotten**, and its identifier is its alone.
* `cancel_acknowledged` — **a cancellation that is acknowledged as complete** is one of a
  request without a lease, and stays so.
* `registry_bounded` — how far the registry grows.
-/

namespace Qw3.Serving.Cancellation

/-- An identifier: the bytes of a `std::string`. -/
abbrev RequestId := List UInt8

/-- The characters of an identifier. -/
def alphabet : List UInt8 :=
  "abcdefghijklmnopqrstuvwxyzABCDEFGHIJKLMNOPQRSTUVWXYZ0123456789-_.".toList.map
    fun c => c.toNat.toUInt8

/-- What `begin` accepts, other than no identifier. -/
def Valid (id : RequestId) : Prop := id.length ≤ 128 ∧ ∀ b ∈ id, b ∈ alphabet

instance (id : RequestId) : Decidable (Valid id) := inferInstanceAs (Decidable (_ ∧ _))

/-- `State`, with the identifier it was made for and the references to its lease: none before
there is a lease. -/
structure Request where
  id : RequestId
  cancelled : Bool
  completed : Bool
  lease : Option ℕ
  deriving DecidableEq, Repr

/-- `RequestCancellationRegistry`, with all the states that were ever made. -/
structure Registry where
  states : List (RequestId × ℕ)
  requests : List Request

namespace Registry

variable (r : Registry)

/-- The request has not completed. -/
def Live (o : ℕ) : Prop := ∃ q, r.requests[o]? = some q ∧ q.completed = false

instance (o : ℕ) : Decidable (r.Live o) :=
  decidable_of_iff ((r.requests[o]?).any (fun q => !q.completed) = true) (by
    simp [Live, Option.any_eq_true])

/-- The loop over `states_`. -/
def prune : Registry :=
  if 4096 ≤ r.states.length then { r with states := r.states.filter fun e => decide (r.Live e.2) } else r

/-- A new state. -/
def add (id : RequestId) : Registry := { r with requests := r.requests ++ [⟨id, false, false, none⟩] }

/-- `begin`, up to the lease: the state that the lease is made for. -/
def begin (id : RequestId) : Except String ℕ × Registry :=
  if id = [] then (.ok r.requests.length, r.add id)
  else if ¬ Valid id then (.error "invalid x-qw3-request-id", r)
  else if r.prune.states.any fun e => decide (e.1 = id) then
    (.error "duplicate x-qw3-request-id", r.prune)
  else
    (.ok r.requests.length,
      { r.prune.add id with states := (id, r.requests.length) :: r.prune.states })

/-- A request changes. -/
def set (o : ℕ) (q : Request) : Registry := { r with requests := r.requests.set o q }

/-- The state with an identifier. -/
def find (id : RequestId) : Option ℕ := (r.states.find? fun e => decide (e.1 = id)).map Prod.snd

/-- `cancel`. -/
def cancel (id : RequestId) : Option ℕ × Registry :=
  match r.find id with
  | none => (none, r)
  | some o =>
      match r.requests[o]? with
      | some q => (some o, r.set o { q with cancelled := true })
      | none => (none, r)

/-- A step that a request in a given state can do. -/
def change (o : ℕ) (f : Request → Option Request) : Option Registry :=
  (r.requests[o]?).bind fun q => (f q).map (r.set o)

end Registry

/-- A step of the thread of a request or of the handler. -/
inductive Action
  | begin (id : RequestId)
  | lease (o : ℕ)
  | share (o : ℕ)
  | drop (o : ℕ)
  | complete (o : ℕ)
  | cancel (id : RequestId)
  deriving DecidableEq, Repr

/-- The lease is made. -/
def Request.open (q : Request) : Option Request :=
  match q.lease with
  | none => some { q with lease := some 1 }
  | some _ => none

/-- Another reference to the lease. -/
def Request.share (q : Request) : Option Request :=
  match q.lease with
  | some (n + 1) => some { q with lease := some (n + 2) }
  | _ => none

/-- A reference to the lease goes. -/
def Request.drop (q : Request) : Option Request :=
  match q.lease with
  | some (n + 1) => some { q with lease := some n }
  | _ => none

/-- The destructor of the lease. -/
def Request.complete (q : Request) : Option Request :=
  match q.lease with
  | some 0 => some { q with completed := true }
  | _ => none

/-- A step. -/
def step (r : Registry) : Action → Option Registry
  | .begin id => some (r.begin id).2
  | .lease o => r.change o Request.open
  | .share o => r.change o Request.share
  | .drop o => r.change o Request.drop
  | .complete o => r.change o Request.complete
  | .cancel id => some (r.cancel id).2

/-- The registry and its users. -/
def machine : Machine Registry Action where
  init r := r = ⟨[], []⟩
  step := step

/-! ## The invariant -/

/-- What is registered is valid and stands for a state; what lives is registered, under an
identifier that nothing else has. -/
structure Registry.Sound (r : Registry) : Prop where
  nodup : (r.states.map Prod.fst).Nodup
  named : ∀ {e}, e ∈ r.states → e.1 ≠ [] ∧ Valid e.1 ∧
    ∃ q, r.requests[e.2]? = some q ∧ q.id = e.1
  registered : ∀ {o : ℕ} {q : Request}, r.requests[o]? = some q → q.completed = false →
    q.id ≠ [] → (q.id, o) ∈ r.states
  closed : ∀ {o : ℕ} {q : Request}, r.requests[o]? = some q → q.completed = true →
    q.lease = some 0

section Sound

variable {r u : Registry} {o : ℕ} {q : Request} {id : RequestId}

/-- Pruning adds no entry. -/
theorem mem_prune {e : RequestId × ℕ} (h : e ∈ r.prune.states) : e ∈ r.states := by
  unfold Registry.prune at h
  split_ifs at h
  · exact List.mem_of_mem_filter h
  · exact h

/-- Pruning keeps the entries of living requests. -/
theorem mem_prune_of_live {e : RequestId × ℕ} (h : e ∈ r.states) (hlive : r.Live e.2) :
    e ∈ r.prune.states := by
  unfold Registry.prune
  split_ifs
  · exact List.mem_filter.mpr ⟨h, decide_eq_true hlive⟩
  · exact h

@[simp] theorem prune_requests (r : Registry) : r.prune.requests = r.requests := by
  unfold Registry.prune
  split_ifs <;> rfl

theorem Registry.Sound.prune (h : r.Sound) : r.prune.Sound where
  nodup := by
    unfold Registry.prune
    split_ifs
    · exact h.nodup.sublist (List.filter_sublist.map _)
    · exact h.nodup
  named he := by
    rw [prune_requests]
    exact h.named (mem_prune he)
  registered ho hlive hid := by
    rw [prune_requests] at ho
    exact mem_prune_of_live (h.registered ho hlive hid) ⟨_, ho, hlive⟩
  closed ho hq := by
    rw [prune_requests] at ho
    exact h.closed ho hq

/-- A state of a longer registry is an old one or the new one. -/
theorem add_request {q : Request} (ho : (r.add id).requests[o]? = some q) :
    r.requests[o]? = some q ∨ o = r.requests.length ∧ q = ⟨id, false, false, none⟩ := by
  change (r.requests ++ [_])[o]? = some q at ho
  rcases lt_trichotomy o r.requests.length with hlt | rfl | hlt
  · rw [List.getElem?_append_left hlt] at ho
    exact .inl ho
  · rw [List.getElem?_append_right le_rfl, Nat.sub_self] at ho
    exact .inr ⟨rfl, (Option.some.inj ho).symm⟩
  · rw [List.getElem?_eq_none (by rw [List.length_append]; exact hlt)] at ho
    cases ho

theorem requests_add (h : r.requests[o]? = some q) : (r.add id).requests[o]? = some q := by
  change (r.requests ++ [_])[o]? = some q
  rw [List.getElem?_append_left (List.getElem?_eq_some_iff.mp h).1]
  exact h

/-- A new request gets an identifier that no other one has. -/
theorem Registry.Sound.begin (h : r.Sound) (id : RequestId) : (r.begin id).2.Sound := by
  unfold Registry.begin
  split_ifs with hempty hvalid hdup
  · refine ⟨h.nodup, fun he => ?_, fun ho hlive hid => ?_, fun ho hq => ?_⟩
    · obtain ⟨hne, hvalid, q, hq, hid⟩ := h.named he
      exact ⟨hne, hvalid, q, requests_add hq, hid⟩
    · rcases add_request ho with ho | ⟨-, rfl⟩
      · exact h.registered ho hlive hid
      · exact absurd hempty hid
    · rcases add_request ho with ho | ⟨-, rfl⟩
      · exact h.closed ho hq
      · cases hq
  · exact h.prune
  · -- the identifier is new, and its state is the last one
    have hp := h.prune
    have hlast : (r.prune.add id).requests[r.requests.length]? = some ⟨id, false, false, none⟩ := by
      change (r.prune.requests ++ [_])[r.requests.length]? = _
      rw [prune_requests, List.getElem?_append_right le_rfl, Nat.sub_self]
      rfl
    have hnew : id ∉ r.prune.states.map Prod.fst := by
      intro hmem
      obtain ⟨e, he, rfl⟩ := List.mem_map.mp hmem
      exact hdup (List.any_eq_true.mpr ⟨e, he, decide_eq_true rfl⟩)
    refine ⟨List.nodup_cons.mpr ⟨hnew, hp.nodup⟩, fun he => ?_, fun ho hlive hid => ?_, fun ho hq => ?_⟩
    · rcases List.mem_cons.mp he with rfl | he
      · exact ⟨hempty, hvalid, _, hlast, rfl⟩
      · obtain ⟨hne, hvalid, q, hq, hid⟩ := hp.named he
        exact ⟨hne, hvalid, q, requests_add hq, hid⟩
    · rcases add_request (r := r.prune) ho with ho | ⟨rfl, rfl⟩
      · exact List.mem_cons_of_mem _ (hp.registered ho hlive hid)
      · rw [prune_requests]
        exact List.mem_cons_self
    · rcases add_request (r := r.prune) ho with ho | ⟨-, rfl⟩
      · exact hp.closed ho hq
      · cases hq
  · exact h

theorem find_eq_some (h : r.find id = some o) : (id, o) ∈ r.states := by
  obtain ⟨e, he, rfl⟩ := Option.map_eq_some_iff.mp h
  have hid : e.1 = id :=
    of_decide_eq_true (List.find?_some (p := fun e : RequestId × ℕ => decide (e.1 = id)) he)
  rw [← hid]
  exact List.mem_of_find?_eq_some he

/-- What is registered is found. -/
theorem Registry.Sound.find (h : r.Sound) (ho : (id, o) ∈ r.states) : r.find id = some o := by
  cases hfind : r.find id with
  | none =>
      have hnone := List.find?_eq_none.mp (Option.map_eq_none_iff.mp hfind) _ ho
      exact absurd (decide_eq_true rfl) hnone
  | some o' =>
      have heq := List.inj_on_of_nodup_map h.nodup (find_eq_some hfind) ho rfl
      rw [(Prod.mk.inj heq).2]

/-- What a request may do to its state. -/
structure Request.Keeps (q q' : Request) : Prop where
  id : q'.id = q.id
  cancelled : q.cancelled = true → q'.cancelled = true
  completed : q.completed = true → q'.completed = true
  lease : q.lease = some 0 → q'.lease = some 0
  closed : q'.completed = true → q.completed = true ∨ q'.lease = some 0

variable {q' : Request}

theorem Request.keeps_open (h : q.open = some q') : q.Keeps q' := by
  unfold Request.open at h
  split at h
  · next hq =>
      rw [← Option.some.inj h]
      exact ⟨rfl, fun h => h, fun h => h, fun h0 => (by rw [hq] at h0; cases h0), .inl⟩
  · cases h

theorem Request.keeps_share (h : q.share = some q') : q.Keeps q' := by
  unfold Request.share at h
  split at h
  · next hq =>
      rw [← Option.some.inj h]
      exact ⟨rfl, fun h => h, fun h => h, fun h0 => (by rw [hq] at h0; cases h0), .inl⟩
  · cases h

theorem Request.keeps_drop (h : q.drop = some q') : q.Keeps q' := by
  unfold Request.drop at h
  split at h
  · next hq =>
      rw [← Option.some.inj h]
      exact ⟨rfl, fun h => h, fun h => h, fun h0 => (by rw [hq] at h0; cases h0), .inl⟩
  · cases h

theorem Request.keeps_complete (h : q.complete = some q') : q.Keeps q' := by
  unfold Request.complete at h
  split at h
  · next hq =>
      rw [← Option.some.inj h]
      exact ⟨rfl, fun h => h, fun _ => rfl, fun h => h, fun _ => .inr hq⟩
  · cases h

theorem Request.keeps_cancelled (q : Request) : q.Keeps { q with cancelled := true } :=
  ⟨rfl, fun _ => rfl, fun h => h, fun h => h, .inl⟩

theorem set_self (ho : r.requests[o]? = some q) :
    (r.set o q').requests[o]? = some q' := by
  change (r.requests.set o q')[o]? = some q'
  rw [List.getElem?_set_self (List.getElem?_eq_some_iff.mp ho).1]

theorem set_of_ne {i : ℕ} (h : i ≠ o) :
    (r.set o q').requests[i]? = r.requests[i]? := List.getElem?_set_ne (Ne.symm h)

/-- A request that goes on changes nothing in the table. -/
theorem Registry.Sound.set (h : r.Sound) (ho : r.requests[o]? = some q)
    (hq : q.Keeps q') : (r.set o q').Sound where
  nodup := h.nodup
  named {e} he := by
    obtain ⟨hne, hvalid, p, hp, hid⟩ := h.named he
    rcases eq_or_ne e.2 o with heq | hoe
    · subst heq
      obtain rfl := Option.some.inj (hp.symm.trans ho)
      exact ⟨hne, hvalid, q', set_self ho, hq.id.trans hid⟩
    · exact ⟨hne, hvalid, p, (set_of_ne hoe).trans hp, hid⟩
  registered {i p} hi hlive hid := by
    rcases eq_or_ne i o with rfl | hne
    · obtain rfl := Option.some.inj (hi.symm.trans (set_self ho))
      rw [hq.id] at hid ⊢
      refine h.registered ho ?_ hid
      by_contra hdone
      rw [hq.completed (Bool.not_eq_false _ ▸ hdone)] at hlive
      cases hlive
    · rw [set_of_ne hne] at hi
      exact h.registered hi hlive hid
  closed {i p} hi hdone := by
    rcases eq_or_ne i o with rfl | hne
    · obtain rfl := Option.some.inj (hi.symm.trans (set_self ho))
      rcases hq.closed hdone with hold | hnew
      · exact hq.lease (h.closed ho hold)
      · exact hnew
    · rw [set_of_ne hne] at hi
      exact h.closed hi hdone

/-- What a step can be. -/
inductive Moves (r : Registry) : Registry → Prop
  | begin (id : RequestId) : Moves r (r.begin id).2
  | set {o : ℕ} {q q' : Request} (ho : r.requests[o]? = some q) (hq : q.Keeps q') :
      Moves r (r.set o q')
  | stay : Moves r r

theorem moves_change {f : Request → Option Request} (hf : ∀ {q q'}, f q = some q' → q.Keeps q')
    (h : r.change o f = some u) : Moves r u := by
  obtain ⟨q, hq, h⟩ := Option.bind_eq_some_iff.mp h
  obtain ⟨q', hq', rfl⟩ := Option.map_eq_some_iff.mp h
  exact .set hq (hf hq')

theorem moves_cancel (r : Registry) (id : RequestId) : Moves r (r.cancel id).2 := by
  unfold Registry.cancel
  split
  · exact .stay
  · split
    · next ho => exact .set ho (Request.keeps_cancelled _)
    · exact .stay

/-- What an action does to the registry. -/
theorem moves_of_step {a : Action} (h : step r a = some u) : Moves r u := by
  cases a with
  | begin id =>
      obtain rfl := Option.some.inj h
      exact .begin id
  | lease o => exact moves_change Request.keeps_open h
  | share o => exact moves_change Request.keeps_share h
  | drop o => exact moves_change Request.keeps_drop h
  | complete o => exact moves_change Request.keeps_complete h
  | cancel id =>
      obtain rfl := Option.some.inj h
      exact moves_cancel r id

/-- Whatever it does, the table stays sound. -/
theorem Registry.Sound.moves (h : r.Sound) (hu : Moves r u) : u.Sound := by
  cases hu with
  | begin id => exact h.begin id
  | set ho hq => exact h.set ho hq
  | stay => exact h

end Sound

theorem machine_invariant : machine.Invariant Registry.Sound where
  init r hr := by
    obtain rfl := hr
    exact ⟨List.nodup_nil, fun he => (nomatch he), fun ho => (nomatch ho), fun ho => (nomatch ho)⟩
  step _ _ _ h hu := h.moves (moves_of_step hu)

/-! ## Requests that live, and those that have completed -/

/-- What stays true of the states. -/
def Later (r u : Registry) : Prop :=
  ∀ (o : ℕ) (q : Request), r.requests[o]? = some q → ∃ q', u.requests[o]? = some q' ∧ q'.id = q.id ∧
    (q.cancelled = true → q'.cancelled = true) ∧ (q.lease = some 0 → q'.lease = some 0)

theorem Later.refl (r : Registry) : Later r r := fun _ q hq => ⟨q, hq, rfl, id, id⟩

theorem Later.trans {r u v : Registry} (h : Later r u) (h' : Later u v) : Later r v := by
  intro o q hq
  obtain ⟨p, hp, hid, hcancelled, hlease⟩ := h o q hq
  obtain ⟨p', hp', hid', hcancelled', hlease'⟩ := h' o p hp
  exact ⟨p', hp', hid'.trans hid, hcancelled' ∘ hcancelled, hlease' ∘ hlease⟩

/-- Nothing is taken back. -/
theorem later_of_moves {r u : Registry} (h : Moves r u) : Later r u := by
  intro o q hq
  cases h with
  | begin id =>
      refine ⟨q, ?_, rfl, fun h => h, fun h => h⟩
      unfold Registry.begin
      split_ifs
      · exact requests_add hq
      · rwa [prune_requests]
      · exact requests_add (r := r.prune) (by rwa [prune_requests])
      · exact hq
  | @set i p p' hi hp =>
      rcases eq_or_ne i o with rfl | hne
      · obtain rfl := Option.some.inj (hq.symm.trans hi)
        exact ⟨p', set_self hi, hp.id, hp.cancelled, hp.lease⟩
      · exact ⟨q, (set_of_ne hne.symm).trans hq, rfl, id, id⟩
  | stay => exact ⟨q, hq, rfl, id, id⟩

theorem later_of_run {r u : Registry} {as : List Action} (h : machine.run r as = some u) :
    Later r u :=
  (Machine.run_rel (I := fun _ => True) Later.refl Later.trans (fun _ _ _ _ _ => trivial)
    (fun _ _ _ _ hu => later_of_moves (moves_of_step hu)) trivial h).2

/-- A cancel that finds its request marks that one. -/
theorem cancel_eq_some {r u : Registry} {id : RequestId} {o : ℕ} (h : r.cancel id = (some o, u)) :
    (id, o) ∈ r.states ∧ ∃ q, r.requests[o]? = some q ∧ u = r.set o { q with cancelled := true } := by
  unfold Registry.cancel at h
  split at h
  · cases h
  · next o' hfind =>
      split at h
      · next q hq =>
          obtain ⟨ho, rfl⟩ := Prod.mk.inj h
          obtain rfl := Option.some.inj ho
          exact ⟨find_eq_some hfind, q, hq, rfl⟩
      · cases h

/-- A live request is cancelled by its identifier. -/
theorem Registry.Sound.cancel_live {r : Registry} (h : r.Sound) {o : ℕ} {q : Request}
    (ho : r.requests[o]? = some q) (hlive : q.completed = false) (hid : q.id ≠ []) :
    r.cancel q.id = (some o, r.set o { q with cancelled := true }) := by
  simp only [Registry.cancel, h.find (h.registered ho hlive hid), ho]

/-- **A live request is never forgotten**: in every run its identifier names it, no other
live request has that identifier, and a cancellation of the identifier reaches it. -/
theorem live_registered {r : Registry} (hr : machine.Reachable r) {o : ℕ} {q : Request}
    (ho : r.requests[o]? = some q) (hlive : q.completed = false) (hid : q.id ≠ []) :
    (∀ (i : ℕ) (p : Request), r.requests[i]? = some p → p.completed = false → p.id = q.id → i = o) ∧
      r.cancel q.id = (some o, r.set o { q with cancelled := true }) := by
  have hsound := machine_invariant.reachable hr
  refine ⟨?_, hsound.cancel_live ho hlive hid⟩
  intro i p hi hp hpid
  have hmem := hsound.registered hi hp (hpid ▸ hid)
  rw [hpid] at hmem
  have heq := List.inj_on_of_nodup_map hsound.nodup hmem (hsound.registered ho hlive hid) rfl
  exact (Prod.mk.inj heq).2

/-- A request that lives, and one that is done. -/
def twoRequests : List Action :=
  [.begin [97], .lease 0, .begin [98], .lease 1, .share 1, .drop 1, .drop 1, .complete 1]

theorem live_registered_two : ∃ r, machine.Reachable r ∧
    r.cancel [97] = (some 0, r.set 0 ⟨[97], true, false, some 1⟩) := by
  have hrun : (machine.run ⟨[], []⟩ twoRequests).any
      (fun r => decide (r.requests[0]? = some ⟨[97], false, false, some 1⟩)) = true := by
    decide +kernel
  obtain ⟨r, hr, h⟩ := Machine.exists_reachable rfl hrun
  exact ⟨r, hr, (live_registered hr (of_decide_eq_true h) rfl (List.cons_ne_nil _ _)).2⟩

/-- **A cancellation that is acknowledged as complete** is one of a request that nothing works
for: the request that was asked for is cancelled, and its lease is gone for good.  Where no
request is found none with the identifier lives. -/
theorem cancel_acknowledged {r : Registry} (hr : machine.Reachable r) (id : RequestId) :
    ((r.cancel id).1 = none → ∀ (o : ℕ) (q : Request), r.requests[o]? = some q → q.id = id → id ≠ [] →
      q.completed = true) ∧
    ∀ o, (r.cancel id).1 = some o → ∀ as u, machine.run (r.cancel id).2 as = some u →
      ∀ q : Request, u.requests[o]? = some q → q.completed = true →
        ∀ bs v, machine.run u bs = some v → ∃ p, v.requests[o]? = some p ∧ p.id = id ∧ p.cancelled = true ∧ p.lease = some 0 := by
  constructor
  · intro hnone o q ho hq hid
    subst hq
    by_contra hlive
    have hsound := machine_invariant.reachable hr
    rw [hsound.cancel_live ho (Bool.not_eq_true _ ▸ hlive) hid] at hnone
    cases hnone
  · intro o hsome as u hu q hq hdone bs v hv
    have hsound := machine_invariant.reachable hr
    obtain ⟨hmem, p, hp, hset⟩ := cancel_eq_some (u := (r.cancel id).2) (Prod.ext hsome rfl)
    -- the state that is cancelled has the identifier
    obtain ⟨-, -, p', hp', hid⟩ := hsound.named hmem
    obtain rfl := Option.some.inj (hp'.symm.trans hp)
    have hcancelled : (r.cancel id).2.requests[o]? = some { p' with cancelled := true } := by
      rw [hset]
      exact set_self hp
    obtain ⟨q', hq', hqid, hqc, -⟩ := later_of_run hu o _ hcancelled
    obtain rfl := Option.some.inj (hq'.symm.trans hq)
    have husound : u.Sound := machine_invariant.run
      (machine_invariant.step r (.cancel id) _ hsound rfl) hu
    have hlease := husound.closed hq hdone
    obtain ⟨w, hw, hwid, hwc, hwl⟩ := later_of_run hv o _ hq
    exact ⟨w, hw, hwid.trans (hqid.trans hid), hwc (hqc rfl), hwl hlease⟩

theorem cancel_acknowledged_two : ∃ r, machine.Reachable r ∧ (r.cancel [98]).1 = some 1 ∧
    ∀ as u, machine.run (r.cancel [98]).2 as = some u → ∀ q : Request, u.requests[1]? = some q →
      q.completed = true → q.id = [98] ∧ q.cancelled = true ∧ q.lease = some 0 := by
  have hrun : (machine.run ⟨[], []⟩ twoRequests).any
      (fun r => decide ((r.cancel [98]).1 = some 1)) = true := by decide +kernel
  obtain ⟨r, hr, h⟩ := Machine.exists_reachable rfl hrun
  refine ⟨r, hr, of_decide_eq_true h, fun as u hu q hq hdone => ?_⟩
  obtain ⟨p, hp, hpq⟩ :=
    (cancel_acknowledged hr [98]).2 1 (of_decide_eq_true h) as u hu q hq hdone [] u rfl
  rwa [Option.some.inj (hp.symm.trans hq)] at hpq

/-! ## How far the registry grows -/

/-- The live requests that have identifiers. -/
def Registry.living (r : Registry) : List ℕ :=
  (List.range r.requests.length).filter fun o =>
    (r.requests[o]?).any fun q => !q.completed && decide (q.id ≠ [])

/-- The machine, with the most requests that have lived at a time. -/
def peakMachine : Machine (Registry × ℕ) Action :=
  machine.withHistory 0 fun _ _ u n => max n u.living.length

theorem mem_living {r : Registry} {o : ℕ} {q : Request} (ho : r.requests[o]? = some q)
    (hlive : q.completed = false) (hid : q.id ≠ []) : o ∈ r.living := by
  refine List.mem_filter.mpr ⟨List.mem_range.mpr (List.getElem?_eq_some_iff.mp ho).1, ?_⟩
  simp [ho, hlive, hid]

/-- Where all that is registered lives, it is counted. -/
theorem Registry.Sound.length_le {r : Registry} (h : r.Sound) (hlive : ∀ e ∈ r.states, r.Live e.2) :
    r.states.length ≤ r.living.length := by
  have hinj : ∀ e ∈ r.states, ∀ e' ∈ r.states, e.2 = e'.2 → e = e' := by
    intro e he e' he' heq
    obtain ⟨-, -, q, hq, hid⟩ := h.named he
    obtain ⟨-, -, q', hq', hid'⟩ := h.named he'
    rw [heq, hq'] at hq
    rw [Prod.ext_iff, ← hid, ← hid', Option.some.inj hq]
    exact ⟨rfl, heq⟩
  have hnodup : (r.states.map Prod.snd).Nodup := List.Nodup.map_on hinj (List.Nodup.of_map _ h.nodup)
  have hsub : r.states.map Prod.snd ⊆ r.living := by
    intro o ho
    obtain ⟨e, he, rfl⟩ := List.mem_map.mp ho
    obtain ⟨q, hq, hdone⟩ := hlive e he
    obtain ⟨hne, -, q', hq', hid⟩ := h.named he
    obtain rfl := Option.some.inj (hq'.symm.trans hq)
    exact mem_living hq hdone (hid ▸ hne)
  have hle := (List.subperm_of_subset hnodup hsub).length_le
  rwa [List.length_map] at hle

/-- Pruning does not grow the table. -/
theorem prune_length_le (r : Registry) : r.prune.states.length ≤ r.states.length := by
  unfold Registry.prune
  split_ifs
  · exact List.length_filter_le _ _
  · exact le_rfl

/-- What `begin` leaves registered: no more than before, few, or what lives. -/
theorem Registry.Sound.begin_length {r : Registry} (h : r.Sound) (id : RequestId) :
    (r.begin id).2.states.length ≤ r.states.length ∨ (r.begin id).2.states.length ≤ 4096 ∨
      (r.begin id).2.states.length ≤ (r.begin id).2.living.length := by
  by_cases hfull : 4096 ≤ r.states.length
  · have hsound := h.begin id
    unfold Registry.begin at hsound ⊢
    split_ifs at hsound ⊢ with hempty hvalid hdup
    · exact .inl le_rfl
    · exact .inl (prune_length_le r)
    · -- everything that has completed was erased
      refine .inr (.inr (hsound.length_le ?_))
      have hlast : (r.prune.add id).requests[r.requests.length]? = some ⟨id, false, false, none⟩ := by
        change (r.prune.requests ++ [_])[r.requests.length]? = _
        rw [prune_requests, List.getElem?_append_right le_rfl, Nat.sub_self]
        rfl
      intro e he
      rcases List.mem_cons.mp he with rfl | he
      · exact ⟨_, hlast, rfl⟩
      · rw [Registry.prune, if_pos hfull] at he
        obtain ⟨q, hq, hdone⟩ := of_decide_eq_true (List.mem_filter.mp he).2
        exact ⟨q, requests_add (r := r.prune) (by rwa [prune_requests]), hdone⟩
    · exact .inl le_rfl
  · have hprune := prune_length_le r
    unfold Registry.begin
    split_ifs
    · exact .inl le_rfl
    · exact .inl hprune
    · refine .inr (.inl ?_)
      show ((id, r.requests.length) :: r.prune.states).length ≤ 4096
      rw [List.length_cons]
      omega
    · exact .inl le_rfl

/-- The table grows past 4096 only with the living requests. -/
theorem peak_invariant : peakMachine.Invariant fun p =>
    p.1.Sound ∧ p.1.states.length ≤ max 4096 p.2 where
  init p hp := by
    obtain ⟨hr, -⟩ := hp
    obtain ⟨r, n⟩ := p
    obtain rfl := hr
    exact ⟨machine_invariant.init _ rfl, Nat.zero_le _⟩
  step p a p' h hp' := by
    obtain ⟨u, hu, rfl⟩ := Machine.withHistory_step.mp hp'
    refine ⟨h.1.moves (moves_of_step hu), ?_⟩
    show u.states.length ≤ max 4096 (max p.2 u.living.length)
    have hle := h.2
    cases moves_of_step hu with
    | begin id =>
        rcases h.1.begin_length id with hb | hb | hb <;> omega
    | set ho hq =>
        show p.1.states.length ≤ _
        omega
    | stay => omega

/-- **The registry is bounded** by 4096 entries or by the requests that have lived at one
time, whichever is more. -/
theorem registry_bounded {p : Registry × ℕ} (hp : peakMachine.Reachable p) :
    p.1.states.length ≤ max 4096 p.2 :=
  (peak_invariant.reachable hp).2

theorem registry_bounded_two : ∃ p, peakMachine.Reachable p ∧ p.1.states.length ≤ max 4096 p.2 := by
  have hrun : (peakMachine.run (⟨[], []⟩, 0) twoRequests).any
      (fun p => decide (p.1.states.length = 2)) = true := by decide +kernel
  have hinit : peakMachine.init (⟨[], []⟩, 0) := ⟨rfl, rfl⟩
  obtain ⟨p, hp, -⟩ := Machine.exists_reachable hinit hrun
  exact ⟨p, hp, registry_bounded hp⟩

end Qw3.Serving.Cancellation
