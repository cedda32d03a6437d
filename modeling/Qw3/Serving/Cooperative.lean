import Mathlib.Data.List.Basic
import Qw3.Lib.Machine

/-!
# Controllers of cooperative requests

`cooperative_request.hpp`: every request has a thread of its own, and one scheduler resumes
them.  Each critical section is one action, and so is each time that a wait on the condition
variable looks at what it waits for: it goes on or sleeps, until it is notified or wakes up
for no reason.  What the body of a request does, and when, is left to the actions.

* `machine` — the scheduler and any number of controllers.
* `Fits` — where a controller can be while the scheduler is where it is.
* `controllers_exclusive` — **one party runs at a time**, and the scheduler reads an event
  only while the frame that owns it is suspended.
* `resumes_return_yields` — **the events that `resume` returns are those that were
  yielded**, in their order, and the end comes after all of them.
* `scheduler_moves` — no wake-up is lost.
-/

namespace Qw3.Serving

/-! ## The parties -/

/-- `State`. -/
inductive Phase
  | ready | running | yielded | done
  deriving DecidableEq, Repr

/-- Where the thread of a controller is.  One that waits is awake where it has yet to look
at what it waits for. -/
inductive Worker (E : Type)
  | waiting (awake : Bool)
  | body
  | inYield (event : E) (awake : Bool)
  | leaving
  | ended
  deriving DecidableEq, Repr

/-- `CooperativeRequest`. -/
structure Controller (E : Type) where
  phase : Phase
  event : Option E
  stopping : Bool
  error : Option String
  worker : Worker E
  deriving DecidableEq, Repr

/-- The scheduler runs, or it waits in `resume` or in the destructor of a controller. -/
inductive Scheduler (ι : Type)
  | running
  | resuming (i : ι) (awake : Bool)
  | joining (i : ι)
  deriving DecidableEq, Repr

structure State (ι E : Type) where
  scheduler : Scheduler ι
  controller : ι → Option (Controller E)

/-- A step of the scheduler, of the thread of a controller, or a wake-up for no reason. -/
inductive Action (ι E : Type)
  | create (i : ι)
  | resume (i : ι)
  | check
  | destroy (i : ι)
  | join
  | start (i : ι)
  | yield (i : ι) (event : E)
  | refused (i : ι)
  | proceed (i : ι)
  | leave (i : ι) (error : Option String)
  | exit (i : ι)
  | spurious (i : ι)
  | spuriousCheck
  deriving DecidableEq

variable {ι E : Type}

/-- A new controller; its thread has not looked at anything. -/
def Controller.fresh : Controller E := ⟨.ready, none, false, none, .waiting true⟩

/-- `cv_.notify_all()`, for the thread. -/
def Worker.notify : Worker E → Worker E
  | .waiting _ => .waiting true
  | .inYield event _ => .inYield event true
  | w => w

/-- What the thread waits for. -/
def Controller.CanProceed (c : Controller E) : Prop := c.phase = .running ∨ c.stopping = true

instance (c : Controller E) : Decidable c.CanProceed := inferInstanceAs (Decidable (_ ∨ _))

/-- The thread looks at the wait of the constructor. -/
def Controller.start (c : Controller E) : Option (Controller E) :=
  match c.worker with
  | .waiting true =>
      if c.CanProceed then
        if c.stopping then some { c with error := some "request controller stopped", worker := .leaving }
        else some { c with worker := .body }
      else some { c with worker := .waiting false }
  | _ => none

/-- `yield`, up to its wait. -/
def Controller.yield (c : Controller E) (event : E) : Option (Controller E) :=
  match c.worker with
  | .body =>
      if c.phase ≠ .running then none
      else some { c with event := some event, phase := .yielded, worker := .inYield event c.stopping }
  | _ => none

/-- `yield` throws, and the body goes on with the exception. -/
def Controller.refused (c : Controller E) : Option (Controller E) :=
  match c.worker with
  | .body => if c.phase ≠ .running then some c else none
  | _ => none

/-- The thread looks at the wait of `yield`, which may throw into the body. -/
def Controller.proceed (c : Controller E) : Option (Controller E) :=
  match c.worker with
  | .inYield event true =>
      if c.CanProceed then some { c with event := none, worker := .body }
      else some { c with worker := .inYield event false }
  | _ => none

/-- The body returns, or an exception leaves it. -/
def Controller.leave (c : Controller E) (error : Option String) : Option (Controller E) :=
  match c.worker with
  | .body => some { c with error := error, worker := .leaving }
  | _ => none

/-- The last critical section of the thread. -/
def Controller.exit (c : Controller E) : Option (Controller E) :=
  match c.worker with
  | .leaving => some { c with event := none, phase := .done, worker := .ended }
  | _ => none

variable [DecidableEq ι]

/-- `cv_.notify_all()`, for the scheduler. -/
def Scheduler.notify (i : ι) : Scheduler ι → Scheduler ι
  | .resuming j awake => .resuming j (awake || decide (j = i))
  | s => s

namespace State

/-- A controller changes. -/
def set (q : State ι E) (i : ι) (c : Option (Controller E)) : State ι E :=
  { q with controller := Function.update q.controller i c }

/-- The thread of a controller does something. -/
def act (q : State ι E) (i : ι) (f : Controller E → Option (Controller E)) : Option (State ι E) :=
  (q.controller i).bind fun c => (f c).map fun c => q.set i (some c)

/-- The thread of a controller does something and notifies. -/
def signal (q : State ι E) (i : ι) (f : Controller E → Option (Controller E)) :
    Option (State ι E) :=
  (q.act i f).map fun u => { u with scheduler := u.scheduler.notify i }

end State

/-- A step.  There is none where `resume` would throw. -/
def step (q : State ι E) : Action ι E → Option (State ι E)
  | .create i =>
      if q.scheduler = .running ∧ (q.controller i).isNone then some (q.set i (some .fresh)) else none
  | .resume i =>
      match q.scheduler, q.controller i with
      | .running, some c =>
          if c.phase = .done then some q
          else if c.phase = .running ∨ c.stopping = true then none
          else
            some { q.set i (some { c with phase := .running, worker := c.worker.notify }) with
              scheduler := .resuming i false }
      | _, _ => none
  | .check =>
      match q.scheduler with
      | .resuming i true =>
          (q.controller i).map fun c =>
            { q with scheduler := if c.phase ≠ .running then .running else .resuming i false }
      | _ => none
  | .destroy i =>
      match q.scheduler, q.controller i with
      | .running, some c =>
          some { q.set i (some { c with stopping := true, worker := c.worker.notify }) with
            scheduler := .joining i }
      | _, _ => none
  | .join =>
      match q.scheduler with
      | .joining i =>
          (q.controller i).bind fun c =>
            match c.worker with
            | .ended => some { q.set i none with scheduler := .running }
            | _ => none
      | _ => none
  | .start i => q.act i Controller.start
  | .yield i event => q.signal i fun c => c.yield event
  | .refused i => q.act i Controller.refused
  | .proceed i => q.act i Controller.proceed
  | .leave i error => q.act i fun c => c.leave error
  | .exit i => q.signal i Controller.exit
  | .spurious i => q.act i fun c => some { c with worker := c.worker.notify }
  | .spuriousCheck =>
      match q.scheduler with
      | .resuming i _ => some { q with scheduler := .resuming i true }
      | _ => none

variable (ι E) in
/-- The scheduler and its controllers. -/
def machine : Machine (State ι E) (Action ι E) where
  init q := q = ⟨.running, fun _ => none⟩
  step := step

/-! ## Where a controller can be -/

/-- The scheduler, as a controller sees it. -/
inductive Seat
  | away
  | resuming (awake : Bool)
  | joining
  deriving DecidableEq

/-- The scheduler, seen from a controller. -/
def Scheduler.seat (i : ι) : Scheduler ι → Seat
  | .running => .away
  | .resuming j awake => if j = i then .resuming awake else .away
  | .joining j => if j = i then .joining else .away

@[simp] theorem seat_resuming (i : ι) (awake : Bool) :
    (Scheduler.resuming i awake).seat i = .resuming awake := if_pos rfl

@[simp] theorem seat_joining (i : ι) : (Scheduler.joining i).seat i = .joining := if_pos rfl

theorem seat_resuming_of_ne {i j : ι} (h : j ≠ i) (awake : Bool) :
    (Scheduler.resuming i awake).seat j = .away := if_neg h.symm

theorem seat_joining_of_ne {i j : ι} (h : j ≠ i) : (Scheduler.joining i).seat j = .away :=
  if_neg h.symm

/-- `cv_.notify_all()`, as a controller sees it. -/
def Seat.notify : Seat → Seat
  | .resuming _ => .resuming true
  | s => s

omit [DecidableEq ι] in
/-- Where a controller is while the scheduler is where it is.  A controller that is asked to
stop has not been resumed since. -/
inductive Fits : Seat → Controller E → Prop
  | fresh (awake : Bool) : Fits .away ⟨.ready, none, false, none, .waiting awake⟩
  | starting (b : Bool) : Fits (.resuming b) ⟨.running, none, false, none, .waiting true⟩
  | working (b : Bool) : Fits (.resuming b) ⟨.running, none, false, none, .body⟩
  | leaving (b : Bool) (error : Option String) :
      Fits (.resuming b) ⟨.running, none, false, error, .leaving⟩
  | handing (event : E) (awake : Bool) :
      Fits (.resuming true) ⟨.yielded, some event, false, none, .inYield event awake⟩
  | paused (event : E) (awake : Bool) :
      Fits .away ⟨.yielded, some event, false, none, .inYield event awake⟩
  | resumed (event : E) (b : Bool) :
      Fits (.resuming b) ⟨.running, some event, false, none, .inYield event true⟩
  | finishing (error : Option String) :
      Fits (.resuming true) ⟨.done, none, false, error, .ended⟩
  | finished (error : Option String) : Fits .away ⟨.done, none, false, error, .ended⟩
  | stopFresh : Fits .joining ⟨.ready, none, true, none, .waiting true⟩
  | stopPaused (event : E) :
      Fits .joining ⟨.yielded, some event, true, none, .inYield event true⟩
  | stopWorking : Fits .joining ⟨.yielded, none, true, none, .body⟩
  | stopLeaving (phase : Phase) (error : Option String) (hphase : phase ≠ .running) :
      Fits .joining ⟨phase, none, true, error, .leaving⟩
  | stopped (error : Option String) : Fits .joining ⟨.done, none, true, error, .ended⟩

section Fits

variable {s : Seat} {c d : Controller E}

/-- A frame starts once it is resumed, or stops before. -/
theorem Fits.start (h : Fits s c) (hd : c.start = some d) : Fits s d := by
  cases h <;> simp [Controller.start, Controller.CanProceed] at hd
  case fresh awake =>
    cases awake <;> simp at hd
    subst hd
    exact .fresh false
  case starting b =>
    subst hd
    exact .working b
  case stopFresh =>
    subst hd
    exact .stopLeaving _ _ (by decide)

/-- A yield hands over to the scheduler. -/
theorem Fits.yield {event : E} (h : Fits s c) (hd : c.yield event = some d) : Fits s.notify d := by
  cases h <;> simp [Controller.yield] at hd
  case working b =>
    subst hd
    exact .handing event false

/-- A yield that is refused goes back to the body. -/
theorem Fits.refused (h : Fits s c) (hd : c.refused = some d) : Fits s d := by
  cases h <;> simp [Controller.refused] at hd
  case stopWorking =>
    subst hd
    exact .stopWorking

/-- A frame that is told to go on has been resumed. -/
theorem Fits.proceed (h : Fits s c) (hd : c.proceed = some d) : Fits s d := by
  cases h <;> simp [Controller.proceed, Controller.CanProceed] at hd
  case handing event awake =>
    cases awake <;> simp at hd
    subst hd
    exact .handing event false
  case paused event awake =>
    cases awake <;> simp at hd
    subst hd
    exact .paused event false
  case resumed event b =>
    subst hd
    exact .working b
  case stopPaused event =>
    subst hd
    exact .stopWorking

/-- A body that returns or throws still has the turn. -/
theorem Fits.leave {error : Option String} (h : Fits s c) (hd : c.leave error = some d) :
    Fits s d := by
  cases h <;> simp [Controller.leave] at hd
  case working b =>
    subst hd
    exact .leaving b error
  case stopWorking =>
    subst hd
    exact .stopLeaving _ _ (by decide)

/-- The last act of a frame wakes the scheduler. -/
theorem Fits.exit (h : Fits s c) (hd : c.exit = some d) : Fits s.notify d := by
  cases h <;> simp [Controller.exit] at hd
  case leaving b error =>
    subst hd
    exact .finishing error
  case stopLeaving phase error _ =>
    subst hd
    exact .stopped error

/-- The thread is notified or wakes up. -/
theorem Fits.wake (h : Fits s c) : Fits s { c with worker := c.worker.notify } := by
  cases h with
  | fresh awake => exact .fresh true
  | starting b => exact .starting b
  | working b => exact .working b
  | leaving b error => exact .leaving b error
  | handing event awake => exact .handing event true
  | paused event awake => exact .paused event true
  | resumed event b => exact .resumed event b
  | finishing error => exact .finishing error
  | finished error => exact .finished error
  | stopFresh => exact .stopFresh
  | stopPaused event => exact .stopPaused event
  | stopWorking => exact .stopWorking
  | stopLeaving phase error hphase => exact .stopLeaving phase error hphase
  | stopped error => exact .stopped error

/-- `resume` of a controller that waits. -/
theorem Fits.resume (h : Fits .away c) (hphase : c.phase ≠ .done) :
    Fits (.resuming false) { c with phase := .running, worker := c.worker.notify } := by
  cases h with
  | fresh awake => exact .starting false
  | paused event awake => exact .resumed event false
  | finished error => exact absurd rfl hphase

/-- The scheduler looks at the wait of `resume`. -/
theorem Fits.check (h : Fits (.resuming true) c) :
    Fits (if c.phase ≠ .running then .away else .resuming false) c := by
  cases h with
  | starting => exact .starting false
  | working => exact .working false
  | leaving _ error => exact .leaving false error
  | handing event awake => exact .paused event awake
  | resumed event => exact .resumed event false
  | finishing error => exact .finished error

/-- The destructor, up to the join. -/
theorem Fits.destroy (h : Fits .away c) :
    Fits .joining { c with stopping := true, worker := c.worker.notify } := by
  cases h with
  | fresh awake => exact .stopFresh
  | paused event awake => exact .stopPaused event
  | finished error => exact .stopped error

/-- The scheduler wakes up. -/
theorem Fits.checkAgain {b : Bool} (h : Fits (.resuming b) c) : Fits (.resuming true) c := by
  cases h with
  | starting => exact .starting true
  | working => exact .working true
  | leaving _ error => exact .leaving true error
  | handing event awake => exact .handing event awake
  | resumed event => exact .resumed event true
  | finishing error => exact .finishing error

end Fits

/-! ## One party at a time -/

/-- Every controller is where it can be, and the scheduler waits for one that exists. -/
structure State.Sound (q : State ι E) : Prop where
  fits : ∀ {i c}, q.controller i = some c → Fits (q.scheduler.seat i) c
  present : ∀ {i}, q.scheduler.seat i ≠ .away → ∃ c, q.controller i = some c

section Sound

variable {q u : State ι E} {i j : ι} {f : Controller E → Option (Controller E)}

theorem act_eq_some (h : q.act i f = some u) :
    ∃ c d, q.controller i = some c ∧ f c = some d ∧ u = q.set i (some d) := by
  unfold State.act at h
  obtain ⟨c, hc, h⟩ := Option.bind_eq_some_iff.mp h
  obtain ⟨d, hd, h⟩ := Option.map_eq_some_iff.mp h
  exact ⟨c, d, hc, hd, h.symm⟩

theorem signal_eq_some (h : q.signal i f = some u) : ∃ c d, q.controller i = some c ∧
    f c = some d ∧ u = { q.set i (some d) with scheduler := q.scheduler.notify i } := by
  unfold State.signal at h
  obtain ⟨v, hv, h⟩ := Option.map_eq_some_iff.mp h
  obtain ⟨c, d, hc, hd, rfl⟩ := act_eq_some hv
  exact ⟨c, d, hc, hd, h.symm⟩

theorem resume_eq_some (h : Serving.step q (.resume i) = some u) :
    q.scheduler = .running ∧ ∃ c, q.controller i = some c ∧
      (c.phase = .done ∧ u = q ∨ c.phase ≠ .done ∧
        u = { q.set i (some { c with phase := .running, worker := c.worker.notify }) with
          scheduler := .resuming i false }) := by
  simp only [Serving.step] at h
  split at h
  · next c hs hc =>
      refine ⟨hs, c, hc, ?_⟩
      split_ifs at h with hdone hbusy
      · exact .inl ⟨hdone, (Option.some.inj h).symm⟩
      · exact .inr ⟨hdone, (Option.some.inj h).symm⟩
  · cases h

theorem check_eq_some (h : Serving.step q .check = some u) :
    ∃ i c, q.scheduler = .resuming i true ∧ q.controller i = some c ∧
      u = { q with scheduler := if c.phase ≠ .running then .running else .resuming i false } := by
  simp only [Serving.step] at h
  split at h
  · next i hs =>
      obtain ⟨c, hc, rfl⟩ := Option.map_eq_some_iff.mp h
      exact ⟨i, c, hs, hc, rfl⟩
  · cases h

theorem destroy_eq_some (h : Serving.step q (.destroy i) = some u) :
    q.scheduler = .running ∧ ∃ c, q.controller i = some c ∧
      u = { q.set i (some { c with stopping := true, worker := c.worker.notify }) with
        scheduler := .joining i } := by
  simp only [Serving.step] at h
  split at h
  · next c hs hc => exact ⟨hs, c, hc, (Option.some.inj h).symm⟩
  · cases h

theorem join_eq_some (h : Serving.step q .join = some u) :
    ∃ i, q.scheduler = .joining i ∧ u = { q.set i none with scheduler := .running } := by
  simp only [Serving.step] at h
  split at h
  · next i hs =>
      obtain ⟨c, -, h⟩ := Option.bind_eq_some_iff.mp h
      split at h
      · exact ⟨i, hs, (Option.some.inj h).symm⟩
      · cases h
  · cases h

theorem spuriousCheck_eq_some (h : Serving.step q .spuriousCheck = some u) :
    ∃ i b, q.scheduler = .resuming i b ∧ u = { q with scheduler := .resuming i true } := by
  simp only [Serving.step] at h
  split at h
  · next i b hs => exact ⟨i, b, hs, (Option.some.inj h).symm⟩
  · cases h

variable {c : Controller E}

theorem set_eq_some {d : Option (Controller E)}
    (h : (q.set i d).controller j = some c) : j = i ∧ d = some c ∨ j ≠ i ∧ q.controller j = some c := by
  change Function.update q.controller i d j = some c at h
  rcases eq_or_ne j i with rfl | hne
  · rw [Function.update_self] at h
    exact .inl ⟨rfl, h⟩
  · rw [Function.update_of_ne hne] at h
    exact .inr ⟨hne, h⟩

theorem seat_notify_self (s : Scheduler ι) : (s.notify i).seat i = (s.seat i).notify := by
  cases s with
  | running => rfl
  | resuming j awake =>
      simp only [Scheduler.notify, Scheduler.seat]
      split_ifs with h
      · simp [Seat.notify, h]
      · rfl
  | joining j =>
      simp only [Scheduler.notify, Scheduler.seat]
      split_ifs <;> rfl

theorem seat_notify_of_ne (h : j ≠ i) (s : Scheduler ι) : (s.notify i).seat j = s.seat j := by
  cases s with
  | running => rfl
  | resuming k awake =>
      simp only [Scheduler.notify, Scheduler.seat]
      split_ifs with hk
      · subst hk
        simp [h]
      · rfl
  | joining k => rfl

/-- A controller changes, and the scheduler's place towards it. -/
theorem State.Sound.change (h : q.Sound) {s : Scheduler ι} {d : Controller E}
    (hother : ∀ j, j ≠ i → s.seat j = q.scheduler.seat j) (hd : Fits (s.seat i) d) :
    State.Sound { q.set i (some d) with scheduler := s } where
  fits {j c} hc := by
    rcases set_eq_some (q := q) hc with ⟨rfl, hnew⟩ | ⟨hne, hc⟩
    · rw [← Option.some.inj hnew]
      exact hd
    · show Fits (s.seat j) c
      rw [hother j hne]
      exact h.fits hc
  present {j} hj := by
    rcases eq_or_ne j i with rfl | hne
    · exact ⟨d, Function.update_self ..⟩
    · have hseat : s.seat j ≠ .away := hj
      rw [hother j hne] at hseat
      obtain ⟨c, hc⟩ := h.present hseat
      exact ⟨c, (Function.update_of_ne hne ..).trans hc⟩

/-- Only the scheduler moves. -/
theorem State.Sound.move (h : q.Sound) {s : Scheduler ι}
    (hc : q.controller i = some c) (hother : ∀ j, j ≠ i → s.seat j = q.scheduler.seat j)
    (hfit : Fits (s.seat i) c) : State.Sound { q with scheduler := s } := by
  have hsound := h.change hother hfit
  rwa [State.set, ← hc, Function.update_eq_self] at hsound

/-- The thread of a controller does something. -/
theorem State.Sound.act (h : q.Sound) (hu : q.act i f = some u)
    (hf : ∀ {s c d}, Fits s c → f c = some d → Fits s d) : u.Sound := by
  obtain ⟨c, d, hc, hd, rfl⟩ := act_eq_some hu
  exact h.change (fun _ _ => rfl) (hf (h.fits hc) hd)

theorem State.Sound.signal (h : q.Sound) (hu : q.signal i f = some u)
    (hf : ∀ {s c d}, Fits s c → f c = some d → Fits s.notify d) : u.Sound := by
  obtain ⟨c, d, hc, hd, rfl⟩ := signal_eq_some hu
  refine h.change (fun j hj => seat_notify_of_ne hj _) ?_
  rw [seat_notify_self]
  exact hf (h.fits hc) hd

/-- Every action keeps it. -/
theorem State.Sound.step (h : q.Sound) {a : Action ι E} (hu : step q a = some u) : u.Sound := by
  cases a with
  | create i =>
      simp only [Serving.step] at hu
      split_ifs at hu with hnew
      obtain rfl := Option.some.inj hu
      refine h.change (s := q.scheduler) (fun _ _ => rfl) ?_
      rw [hnew.1]
      exact .fresh true
  | resume i =>
      obtain ⟨hs, c, hc, ⟨-, rfl⟩ | ⟨hdone, rfl⟩⟩ := resume_eq_some hu
      · exact h
      · have hfit := h.fits hc
        rw [hs] at hfit
        refine h.change (fun j hj => ?_) ?_
        · rw [hs, seat_resuming_of_ne hj]
          rfl
        · rw [seat_resuming]
          exact hfit.resume hdone
  | check =>
      obtain ⟨i, c, hs, hc, rfl⟩ := check_eq_some hu
      have hfit := h.fits hc
      rw [hs, seat_resuming] at hfit
      have hcheck := hfit.check
      refine h.move hc (fun j hj => ?_) ?_
      · rw [hs, seat_resuming_of_ne hj]
        split_ifs
        · rfl
        · exact seat_resuming_of_ne hj false
      · split_ifs at hcheck ⊢
        · exact hcheck
        · rw [seat_resuming]
          exact hcheck
  | destroy i =>
      obtain ⟨hs, c, hc, rfl⟩ := destroy_eq_some hu
      have hfit := h.fits hc
      rw [hs] at hfit
      refine h.change (fun j hj => ?_) ?_
      · rw [hs, seat_joining_of_ne hj]
        rfl
      · rw [seat_joining]
        exact hfit.destroy
  | join =>
      obtain ⟨i, hs, rfl⟩ := join_eq_some hu
      constructor
      · intro j d hd
        rcases set_eq_some (q := q) hd with ⟨-, hd⟩ | ⟨hne, hd⟩
        · cases hd
        · have hfit := h.fits hd
          rw [hs, seat_joining_of_ne hne] at hfit
          exact hfit
      · intro j hj
        exact absurd rfl hj
  | start i => exact h.act hu Fits.start
  | yield i event => exact h.signal hu Fits.yield
  | refused i => exact h.act hu Fits.refused
  | proceed i => exact h.act hu Fits.proceed
  | leave i error => exact h.act hu Fits.leave
  | exit i => exact h.signal hu Fits.exit
  | spurious i =>
      refine h.act hu ?_
      intro s c d hfit hd
      rw [← Option.some.inj hd]
      exact hfit.wake
  | spuriousCheck =>
      obtain ⟨i, b, hs, rfl⟩ := spuriousCheck_eq_some hu
      obtain ⟨c, hc⟩ := h.present (i := i) (by simp [hs])
      have hfit := h.fits hc
      rw [hs, seat_resuming] at hfit
      refine h.move hc (fun j hj => ?_) ?_
      · rw [hs, seat_resuming_of_ne hj, seat_resuming_of_ne hj]
      · rw [seat_resuming]
        exact hfit.checkAgain

end Sound

theorem machine_invariant : (machine ι E).Invariant State.Sound where
  init q hq := by
    obtain rfl := hq
    exact ⟨fun hc => (nomatch hc), fun hj => absurd rfl hj⟩
  step _ _ _ h hu := h.step hu

/-- The thread of a controller runs code of the request, or has just left it. -/
def State.Active (q : State ι E) (i : ι) : Prop :=
  ∃ c ∈ q.controller i, c.worker = .body ∨ c.worker = .leaving

theorem Fits.seat_of_active {s : Seat} (h : Fits s c)
    (hc : c.worker = .body ∨ c.worker = .leaving) : s ≠ .away := by
  cases h <;> simp_all

theorem State.Sound.seat_of_active {q : State ι E} {i : ι} (h : q.Sound) (hi : q.Active i) :
    q.scheduler.seat i ≠ .away := by
  obtain ⟨c, hc, hworker⟩ := hi
  exact (h.fits hc).seat_of_active hworker

/-- The scheduler waits for one controller. -/
theorem seat_unique {s : Scheduler ι} {i j : ι} (hi : s.seat i ≠ .away) (hj : s.seat j ≠ .away) :
    i = j := by
  by_contra hne
  cases s with
  | running => exact hi rfl
  | resuming k awake =>
      rcases eq_or_ne i k with rfl | hik
      · exact hj (seat_resuming_of_ne (Ne.symm hne) awake)
      · exact hi (seat_resuming_of_ne hik awake)
  | joining k =>
      rcases eq_or_ne i k with rfl | hik
      · exact hj (seat_joining_of_ne (Ne.symm hne))
      · exact hi (seat_joining_of_ne hik)

/-! ## Events -/

/-- What a controller has yielded, and what `resume` has returned of it. -/
structure Trace (E : Type) where
  yields : List E
  answers : List (Option E)

/-- The answer of the last look of `resume`. -/
def State.answer (q : State ι E) : Option (ι × Option E) :=
  match q.scheduler with
  | .resuming i true => (q.controller i).bind fun c => if c.phase ≠ .running then some (i, c.event) else none
  | _ => none

/-- A step, recorded. -/
def record (q : State ι E) (a : Action ι E) (t : State ι E) (h : ι → Trace E) : ι → Trace E :=
  match a with
  | .create i => Function.update h i ⟨[], []⟩
  | .resume i =>
      -- it returns at once where the scheduler goes on
      if t.scheduler = .running then Function.update h i { h i with answers := (h i).answers ++ [none] }
      else h
  | .check =>
      match q.answer with
      | some (i, event) => Function.update h i { h i with answers := (h i).answers ++ [event] }
      | none => h
  | .yield i event => Function.update h i { h i with yields := (h i).yields ++ [event] }
  | _ => h

variable (ι E) in
/-- The machine, with what was yielded and returned. -/
def history : Machine (State ι E × (ι → Trace E)) (Action ι E) :=
  (machine ι E).withHistory (fun _ => ⟨[], []⟩) record

/-- The event that was yielded and has not been returned. -/
def atHand (s : Seat) (c : Controller E) : List E :=
  match s with
  | .resuming _ => if c.phase = .yielded then c.event.toList else []
  | _ => []

/-- How often the end was returned. -/
def Trace.ended (t : Trace E) : ℕ := t.answers.countP Option.isNone

/-- What has been returned is what was yielded, up to the event at hand. -/
structure Told (s : Seat) (c : Controller E) (t : Trace E) : Prop where
  answered : t.answers ++ (atHand s c).map some = t.yields.map some ++ List.replicate t.ended none
  ended_done : 0 < t.ended → c.phase = .done
  done_ended : s = .away → c.phase = .done → 0 < t.ended
  last : ∀ event awake, c.worker = .inYield event awake → t.yields.getLast? = some event
  silent : ∀ awake, c.worker = .waiting awake → t.yields = []

section Told

variable {s : Seat} {c d : Controller E} {t : Trace E} {event : E}

theorem Told.ended_eq_zero (h : Told s c t) (hc : c.phase ≠ .done) : t.ended = 0 :=
  Nat.eq_zero_of_not_pos fun hpos => hc (h.ended_done hpos)

/-- What a controller does without an event. -/
theorem Told.silently {r : Seat} (h : Told s c t) (hhand : atHand r d = atHand s c)
    (hdone : c.phase = .done → d.phase = .done)
    (haway : r = .away → d.phase = .done → s = .away ∧ c.phase = .done)
    (hlast : ∀ event awake, d.worker = .inYield event awake → ∃ b, c.worker = .inYield event b)
    (hsilent : ∀ awake, d.worker = .waiting awake → ∃ b, c.worker = .waiting b) : Told r d t where
  answered := by
    rw [hhand]
    exact h.answered
  ended_done hpos := hdone (h.ended_done hpos)
  done_ended hr hd := by
    obtain ⟨hs, hc⟩ := haway hr hd
    exact h.done_ended hs hc
  last event awake hd := by
    obtain ⟨b, hb⟩ := hlast event awake hd
    exact h.last event b hb
  silent awake hd := by
    obtain ⟨b, hb⟩ := hsilent awake hd
    exact h.silent b hb

/-- Before it starts nothing was yielded. -/
theorem Told.start (h : Told s c t) (hfit : Fits s c) (hd : c.start = some d) : Told s d t := by
  cases hfit <;> simp [Controller.start, Controller.CanProceed] at hd
  case fresh awake =>
    cases awake <;> simp at hd
    subst hd
    exact h.silently rfl id (fun _ hd => nomatch hd) (fun _ _ hd => nomatch hd) fun _ _ => ⟨_, rfl⟩
  case starting =>
    subst hd
    exact h.silently rfl id (fun hr => nomatch hr) (fun _ _ hd => nomatch hd) fun _ hd => nomatch hd
  case stopFresh =>
    subst hd
    exact h.silently rfl id (fun hr => nomatch hr) (fun _ _ hd => nomatch hd) fun _ hd => nomatch hd

/-- A refused yield adds no event. -/
theorem Told.refused (h : Told s c t) (hfit : Fits s c) (hd : c.refused = some d) : Told s d t := by
  cases hfit <;> simp [Controller.refused] at hd
  case stopWorking =>
    subst hd
    exact h

/-- The event before was read when the frame goes on. -/
theorem Told.proceed (h : Told s c t) (hfit : Fits s c) (hd : c.proceed = some d) : Told s d t := by
  cases hfit <;> simp [Controller.proceed, Controller.CanProceed] at hd
  case handing event awake =>
    cases awake <;> simp at hd
    subst hd
    exact h.silently rfl id (fun hr => nomatch hr) (fun _ _ hd => ⟨true, by rw [(Worker.inYield.inj hd).1]⟩)
      fun _ hd => nomatch hd
  case paused event awake =>
    cases awake <;> simp at hd
    subst hd
    exact h.silently rfl id (fun _ hd => nomatch hd) (fun _ _ hd => ⟨true, by rw [(Worker.inYield.inj hd).1]⟩)
      fun _ hd => nomatch hd
  case resumed =>
    subst hd
    exact h.silently rfl id (fun hr => nomatch hr) (fun _ _ hd => nomatch hd) fun _ hd => nomatch hd
  case stopPaused =>
    subst hd
    exact h.silently rfl id (fun hr => nomatch hr) (fun _ _ hd => nomatch hd) fun _ hd => nomatch hd

theorem Told.leave {error : Option String} (h : Told s c t) (hfit : Fits s c)
    (hd : c.leave error = some d) : Told s d t := by
  cases hfit <;> simp [Controller.leave] at hd
  all_goals
    subst hd
    exact h.silently rfl id (fun hr => nomatch hr) (fun _ _ hd => nomatch hd) fun _ hd => nomatch hd

/-- After the last act the end is at hand. -/
theorem Told.exit (h : Told s c t) (hfit : Fits s c) (hd : c.exit = some d) :
    Told s.notify d t := by
  cases hfit <;> simp [Controller.exit] at hd
  all_goals
    subst hd
    exact h.silently rfl (fun _ => rfl) (fun hr => nomatch hr) (fun _ _ hd => nomatch hd)
      fun _ hd => nomatch hd

/-- The thread is notified or wakes up. -/
theorem Told.wake (h : Told s c t) : Told s { c with worker := c.worker.notify } t := by
  refine h.silently rfl id (fun hr hd => ⟨hr, hd⟩) ?_ ?_
  · intro event awake hd
    cases hc : c.worker with
    | inYield e b =>
        simp only [hc, Worker.notify, Worker.inYield.injEq] at hd
        exact ⟨b, by rw [hd.1]⟩
    | _ => simp [hc, Worker.notify] at hd
  · intro awake hd
    cases hc : c.worker with
    | waiting b => exact ⟨b, rfl⟩
    | _ => simp [hc, Worker.notify] at hd

/-- A yielded event is at hand. -/
theorem Told.yield (h : Told s c t) (hfit : Fits s c) (hd : c.yield event = some d) :
    Told s.notify d { t with yields := t.yields ++ [event] } := by
  cases hfit <;> simp [Controller.yield] at hd
  case working b =>
    subst hd
    have hzero : t.ended = 0 := h.ended_eq_zero (by simp)
    have hanswered := h.answered
    rw [hzero] at hanswered
    refine ⟨?_, fun hpos => absurd hpos hzero.not_gt, fun hr => (nomatch hr), ?_, fun _ hd => (nomatch hd)⟩
    · show t.answers ++ [some event] = _ ++ List.replicate t.ended none
      rw [hzero]
      simpa [atHand] using hanswered
    · intro e awake hd
      obtain ⟨rfl, -⟩ := Worker.inYield.inj hd
      exact List.getLast?_concat ..

/-- `resume` of a controller that waits. -/
theorem Told.resume (h : Told .away c t) (hphase : c.phase ≠ .done) :
    Told (.resuming false) { c with phase := .running, worker := c.worker.notify } t :=
  h.wake.silently rfl (fun hc => absurd hc hphase) (fun hr => nomatch hr) (fun _ awake hd => ⟨awake, hd⟩)
    fun awake hd => ⟨awake, hd⟩

/-- `resume` of a controller that is done. -/
theorem Told.end (h : Told .away c t) (hphase : c.phase = .done) :
    Told .away c { t with answers := t.answers ++ [none] } := by
  have hended : Trace.ended { t with answers := t.answers ++ [none] } = t.ended + 1 := by
    simp [Trace.ended]
  refine ⟨?_, fun _ => hphase, fun _ _ => hended ▸ Nat.succ_pos _, h.last, h.silent⟩
  have hanswered := h.answered
  simp only [atHand, List.map_nil, List.append_nil] at hanswered ⊢
  rw [hended, List.replicate_succ', ← List.append_assoc, ← hanswered]

/-- `resume` returns. -/
theorem Told.check {b : Bool} (h : Told (.resuming b) c t) (hfit : Fits (.resuming b) c)
    (hphase : c.phase ≠ .running) : Told .away c { t with answers := t.answers ++ [c.event] } := by
  cases hfit <;> simp at hphase
  case handing event awake =>
    have hzero : t.ended = 0 := h.ended_eq_zero (by simp)
    have hended : Trace.ended { t with answers := t.answers ++ [some event] } = t.ended := by
      simp [Trace.ended]
    refine ⟨?_, ?_, fun _ hd => (nomatch hd), h.last, h.silent⟩
    · rw [hended]
      simpa [atHand] using h.answered
    · rw [hended, hzero]
      exact fun hpos => absurd hpos (lt_irrefl 0)
  case finishing error =>
    have hended : Trace.ended { t with answers := t.answers ++ [none] } = t.ended + 1 := by
      simp [Trace.ended]
    refine ⟨?_, fun _ => rfl, fun _ _ => hended ▸ Nat.succ_pos _, h.last, h.silent⟩
    have hanswered := h.answered
    simp only [atHand, reduceCtorEq, if_false, List.map_nil, List.append_nil] at hanswered ⊢
    rw [hended, List.replicate_succ', ← List.append_assoc, ← hanswered]

/-- The scheduler goes on waiting. -/
theorem Told.wait {a b : Bool} (h : Told (.resuming a) c t) : Told (.resuming b) c t :=
  h.silently rfl id (fun hr => nomatch hr) (fun _ awake hd => ⟨awake, hd⟩) fun awake hd => ⟨awake, hd⟩

/-- The destructor, up to the join. -/
theorem Told.destroy (h : Told .away c t) :
    Told .joining { c with stopping := true, worker := c.worker.notify } t :=
  h.wake.silently rfl id (fun hr => nomatch hr) (fun _ awake hd => ⟨awake, hd⟩) fun awake hd => ⟨awake, hd⟩

end Told

/-- Every controller that exists has been told faithfully. -/
structure Faithful (q : State ι E) (h : ι → Trace E) : Prop where
  told : ∀ {i c}, q.controller i = some c → Told (q.scheduler.seat i) c (h i)

section Faithful

variable {q u : State ι E} {h h' : ι → Trace E} {i : ι} {f : Controller E → Option (Controller E)}

/-- A controller changes, and the scheduler's place towards it, and its trace. -/
theorem Faithful.change (hh : Faithful q h) {s : Scheduler ι} {d : Controller E}
    (hother : ∀ j, j ≠ i → s.seat j = q.scheduler.seat j) (htrace : ∀ j, j ≠ i → h' j = h j)
    (hd : Told (s.seat i) d (h' i)) : Faithful { q.set i (some d) with scheduler := s } h' := by
  refine ⟨fun {j c} hc => ?_⟩
  rcases set_eq_some (q := q) hc with ⟨rfl, hnew⟩ | ⟨hne, hc⟩
  · rw [← Option.some.inj hnew]
    exact hd
  · show Told (s.seat j) c (h' j)
    rw [hother j hne, htrace j hne]
    exact hh.told hc

/-- Only the scheduler moves. -/
theorem Faithful.move (hh : Faithful q h) {s : Scheduler ι}
    (hc : q.controller i = some c) (hother : ∀ j, j ≠ i → s.seat j = q.scheduler.seat j)
    (htrace : ∀ j, j ≠ i → h' j = h j) (hd : Told (s.seat i) c (h' i)) :
    Faithful { q with scheduler := s } h' := by
  have hfaithful := hh.change hother htrace hd
  rwa [State.set, ← hc, Function.update_eq_self] at hfaithful

theorem Faithful.act (hh : Faithful q h) (hq : q.Sound) (hu : q.act i f = some u)
    (hf : ∀ {s c d t}, Told s c t → Fits s c → f c = some d → Told s d t) : Faithful u h := by
  obtain ⟨c, d, hc, hd, rfl⟩ := act_eq_some hu
  exact hh.change (fun _ _ => rfl) (fun _ _ => rfl) (hf (hh.told hc) (hq.fits hc) hd)

theorem Faithful.signal (hh : Faithful q h) (hq : q.Sound) (hu : q.signal i f = some u)
    (htrace : ∀ j, j ≠ i → h' j = h j)
    (hf : ∀ {s c d}, Told s c (h i) → Fits s c → f c = some d → Told s.notify d (h' i)) :
    Faithful u h' := by
  obtain ⟨c, d, hc, hd, rfl⟩ := signal_eq_some hu
  refine hh.change (fun j hj => seat_notify_of_ne hj _) htrace ?_
  rw [seat_notify_self]
  exact hf (hh.told hc) (hq.fits hc) hd

theorem Faithful.step (hh : Faithful q h) (hq : q.Sound) {a : Action ι E}
    (hu : Serving.step q a = some u) : Faithful u (record q a u h) := by
  cases a with
  | create i =>
      simp only [Serving.step] at hu
      split_ifs at hu with hnew
      obtain rfl := Option.some.inj hu
      refine hh.change (s := q.scheduler) (fun _ _ => rfl) (fun j hj => Function.update_of_ne hj ..) ?_
      rw [record, Function.update_self, hnew.1]
      exact ⟨rfl, fun hpos => (nomatch hpos), fun _ hd => (nomatch hd), fun _ _ hd => (nomatch hd),
        fun _ _ => rfl⟩
  | resume i =>
      obtain ⟨hs, c, hc, hcases⟩ := resume_eq_some hu
      have htold := hh.told hc
      rw [hs] at htold
      rcases hcases with ⟨hdone, rfl⟩ | ⟨hdone, rfl⟩
      · rw [record, if_pos hs]
        refine hh.move (s := u.scheduler) hc (fun _ _ => rfl) (fun j hj => Function.update_of_ne hj ..) ?_
        rw [Function.update_self, hs]
        exact htold.end hdone
      · rw [record, if_neg (fun h => nomatch h)]
        refine hh.change (fun j hj => ?_) (fun _ _ => rfl) ?_
        · rw [hs, seat_resuming_of_ne hj]
          rfl
        · rw [seat_resuming]
          exact htold.resume hdone
  | check =>
      obtain ⟨i, c, hs, hc, rfl⟩ := check_eq_some hu
      have htold := hh.told hc
      rw [hs, seat_resuming] at htold
      have hfit := hq.fits hc
      rw [hs, seat_resuming] at hfit
      by_cases hphase : c.phase ≠ .running
      · have hanswer : q.answer = some (i, c.event) := by simp [State.answer, hs, hc, hphase]
        simp only [record, hanswer, if_pos hphase]
        refine hh.move hc (fun j hj => ?_) (fun j hj => Function.update_of_ne hj ..) ?_
        · rw [hs, seat_resuming_of_ne hj]
          rfl
        · rw [Function.update_self]
          exact htold.check hfit hphase
      · have hanswer : q.answer = none := by simp [State.answer, hs, hc, hphase]
        simp only [record, hanswer, if_neg hphase]
        refine hh.move hc (fun j hj => ?_) (fun _ _ => rfl) ?_
        · rw [hs, seat_resuming_of_ne hj, seat_resuming_of_ne hj]
        · rw [seat_resuming]
          exact htold.wait
  | destroy i =>
      obtain ⟨hs, c, hc, rfl⟩ := destroy_eq_some hu
      have htold := hh.told hc
      rw [hs] at htold
      refine hh.change (fun j hj => ?_) (fun _ _ => rfl) ?_
      · rw [hs, seat_joining_of_ne hj]
        rfl
      · rw [seat_joining]
        exact htold.destroy
  | join =>
      obtain ⟨i, hs, rfl⟩ := join_eq_some hu
      refine ⟨fun {j d} hd => ?_⟩
      rcases set_eq_some (q := q) hd with ⟨-, hd⟩ | ⟨hne, hd⟩
      · cases hd
      · have htold := hh.told hd
        rw [hs, seat_joining_of_ne hne] at htold
        exact htold
  | start i => exact hh.act hq hu Told.start
  | yield i event =>
      refine hh.signal hq hu (fun j hj => Function.update_of_ne hj ..) ?_
      intro s c d htold hfit hd
      rw [record, Function.update_self]
      exact htold.yield hfit hd
  | refused i => exact hh.act hq hu Told.refused
  | proceed i => exact hh.act hq hu Told.proceed
  | leave i error => exact hh.act hq hu Told.leave
  | exit i => exact hh.signal hq hu (fun _ _ => rfl) Told.exit
  | spurious i =>
      refine hh.act hq hu ?_
      intro s c d t htold _ hd
      rw [← Option.some.inj hd]
      exact htold.wake
  | spuriousCheck =>
      obtain ⟨i, b, hs, rfl⟩ := spuriousCheck_eq_some hu
      obtain ⟨c, hc⟩ := hq.present (i := i) (by simp [hs])
      have htold := hh.told hc
      rw [hs, seat_resuming] at htold
      refine hh.move hc (fun j hj => ?_) (fun _ _ => rfl) ?_
      · rw [hs, seat_resuming_of_ne hj, seat_resuming_of_ne hj]
      · rw [seat_resuming]
        exact htold.wait

end Faithful

theorem history_invariant : (history ι E).Invariant fun p => p.1.Sound ∧ Faithful p.1 p.2 where
  init p hp := ⟨machine_invariant.init _ hp.1, by
    obtain ⟨q, h⟩ := p
    obtain ⟨rfl, rfl⟩ := hp
    exact ⟨fun hc => nomatch hc⟩⟩
  step p a p' h hp' := by
    obtain ⟨u, hu, rfl⟩ := Machine.withHistory_step.mp hp'
    exact ⟨h.1.step hu, h.2.step h.1 hu⟩

/-- **One party runs at a time**: while the scheduler runs no thread of a controller does,
and no two of them do.  An event that `resume` has returned last is in a frame of `yield`
that waits: its owner is suspended until the scheduler goes on with it. -/
theorem controllers_exclusive {p : State ι E × (ι → Trace E)} (hp : (history ι E).Reachable p) :
    (∀ i j, p.1.Active i → p.1.Active j → i = j) ∧
    (p.1.scheduler = .running → (∀ i, ¬ p.1.Active i) ∧
      ∀ i c event, p.1.controller i = some c → (p.2 i).answers.getLast? = some (some event) →
        c.phase = .yielded ∧ ∃ awake, c.worker = .inYield event awake) := by
  obtain ⟨hsound, hfaithful⟩ := history_invariant.reachable hp
  refine ⟨fun i j hi hj => seat_unique (hsound.seat_of_active hi) (hsound.seat_of_active hj), ?_⟩
  intro hs
  refine ⟨fun i hi => hsound.seat_of_active hi (by rw [hs]; rfl), ?_⟩
  intro i c event hc hlast
  have htold := hfaithful.told hc
  have hfit := hsound.fits hc
  rw [hs] at htold hfit
  have hanswered := htold.answered
  simp only [Scheduler.seat, atHand, List.map_nil, List.append_nil] at hanswered
  rw [hanswered] at hlast
  cases hfit with
  | fresh awake =>
      have hzero := htold.ended_eq_zero (by simp)
      rw [htold.silent awake rfl, hzero] at hlast
      cases hlast
  | paused e awake =>
      have hzero := htold.ended_eq_zero (by simp)
      rw [hzero, List.replicate_zero, List.append_nil, List.getLast?_map, htold.last e awake rfl] at hlast
      obtain rfl := Option.some.inj (Option.some.inj hlast)
      exact ⟨rfl, awake, rfl⟩
  | finished error =>
      -- the end was returned since
      obtain ⟨n, hn⟩ := Nat.exists_eq_succ_of_ne_zero (htold.done_ended rfl rfl).ne'
      rw [hn, List.replicate_succ', ← List.append_assoc, List.getLast?_concat] at hlast
      cases Option.some.inj hlast

/-- No controllers. -/
def beginning : State Bool ℕ × (Bool → Trace ℕ) := (⟨.running, fun _ => none⟩, fun _ => ⟨[], []⟩)

theorem history_init : (history Bool ℕ).init beginning := ⟨rfl, rfl⟩

/-- Two controllers are resumed and yield in turn. -/
def turns : List (Action Bool ℕ) :=
  [.create false, .create true, .resume false, .start false, .yield false 7, .check, .resume true,
    .start true, .yield true 8, .check]

theorem controllers_exclusive_turns : ∃ p, (history Bool ℕ).Reachable p ∧
    (∀ i, ¬ p.1.Active i) ∧ ∃ c ∈ p.1.controller false, ∃ awake, c.worker = .inYield 7 awake := by
  have hrun : ((history Bool ℕ).run beginning turns).any (fun p => decide
      (p.1.scheduler = .running ∧ (p.1.controller false).isSome ∧
        (p.2 false).answers.getLast? = some (some 7))) = true := by decide
  obtain ⟨p, hp, h⟩ := Machine.exists_reachable history_init hrun
  obtain ⟨hs, hc, hlast⟩ := of_decide_eq_true h
  obtain ⟨c, hc⟩ := Option.isSome_iff_exists.mp hc
  obtain ⟨hidle, hstored⟩ := (controllers_exclusive hp).2 hs
  exact ⟨p, hp, hidle, c, hc, (hstored false c 7 hc hlast).2⟩

/-- **The events that `resume` returns are those that were yielded**, each once and in their
order; only the one that the scheduler is about to read is missing.  It returns the end when
the controller is done, and nothing but the end from then on. -/
theorem resumes_return_yields {p : State ι E × (ι → Trace E)} (hp : (history ι E).Reachable p)
    {i : ι} {c : Controller E} (hc : p.1.controller i = some c) :
    (p.2 i).answers ++ (atHand (p.1.scheduler.seat i) c).map some =
        (p.2 i).yields.map some ++ List.replicate (p.2 i).ended none ∧
      (0 < (p.2 i).ended → c.phase = .done) := by
  have htold := (history_invariant.reachable hp).2.told hc
  exact ⟨htold.answered, htold.ended_done⟩

theorem resumes_return_yields_turns : ∃ p, (history Bool ℕ).Reachable p ∧
    ∃ c ∈ p.1.controller true, (p.2 true).answers ++ (atHand (p.1.scheduler.seat true) c).map some =
      (p.2 true).yields.map some ++ List.replicate (p.2 true).ended none := by
  have hrun : ((history Bool ℕ).run beginning turns).any
      (fun p => (p.1.controller true).isSome) = true := by decide
  obtain ⟨p, hp, h⟩ := Machine.exists_reachable history_init hrun
  obtain ⟨c, hc⟩ := Option.isSome_iff_exists.mp h
  exact ⟨p, hp, c, hc, (resumes_return_yields hp hc).1⟩

/-! ## No wake-up is lost -/

/-- A step that only looks at a wait or ends a thread: no code of a request, nothing that the
scheduler decides, and no wake-up for no reason. -/
def Action.Passive : Action ι E → Prop
  | .check | .join | .start _ | .proceed _ | .exit _ => True
  | _ => False

/-- The scheduler runs, or the controller that it waits for does. -/
def State.Moving (q : State ι E) (i : ι) : Prop :=
  q.scheduler = .running ∨ ∃ c ∈ q.controller i, c.worker = .body

/-- So many passive steps make the scheduler or the controller move. -/
def State.MovesWithin (q : State ι E) (i : ι) (n : ℕ) : Prop :=
  ∃ as : List (Action ι E), as.length ≤ n ∧ (∀ a ∈ as, a.Passive) ∧
    ∃ u, (machine ι E).run q as = some u ∧ u.Moving i

section Moves

variable {q u : State ι E} {i : ι} {n : ℕ}

theorem State.Moving.now (h : q.Moving i) : q.MovesWithin i n :=
  ⟨[], Nat.zero_le n, fun _ ha => (nomatch ha), q, rfl, h⟩

theorem State.MovesWithin.after {a : Action ι E} (h : u.MovesWithin i n) (ha : a.Passive)
    (hu : step q a = some u) : q.MovesWithin i (n + 1) := by
  obtain ⟨as, hlength, hpassive, v, hv, hmoving⟩ := h
  refine ⟨a :: as, Nat.succ_le_succ hlength, ?_, v, ?_, hmoving⟩
  · intro b hb
    rcases List.mem_cons.mp hb with rfl | hb
    · exact ha
    · exact hpassive b hb
  · rw [Machine.run_cons]
    show (step q a).bind _ = _
    rw [hu]
    exact hv

/-- The scheduler looks at what `resume` waits for, and goes on. -/
theorem movesWithin_check (hs : q.scheduler = .resuming i true)
    (hc : q.controller i = some c) (hphase : c.phase ≠ .running) : q.MovesWithin i (n + 1) := by
  refine State.MovesWithin.after (u := { q with scheduler := .running }) ?_ (a := .check) trivial ?_
  · exact State.Moving.now (.inl rfl)
  · simp [step, hs, hc, hphase]

/-- The thread has ended, and the destructor goes on. -/
theorem movesWithin_join (hs : q.scheduler = .joining i)
    (hc : q.controller i = some c) (hworker : c.worker = .ended) : q.MovesWithin i (n + 1) := by
  refine State.MovesWithin.after (u := { q.set i none with scheduler := .running }) ?_ (a := .join)
    trivial ?_
  · exact State.Moving.now (.inl rfl)
  · simp [step, hs, hc, hworker]

/-- The thread ends: a scheduler that waits for it is notified. -/
theorem movesWithin_exit {s : Scheduler ι} (hs : q.scheduler = s)
    (hseat : s.seat i ≠ .away) (hc : q.controller i = some c) (hworker : c.worker = .leaving) :
    q.MovesWithin i (n + 2) := by
  have hd : c.exit = some { c with event := none, phase := .done, worker := .ended } := by
    rw [Controller.exit, hworker]
  have hu : step q (.exit i) = some { q.set i (some { c with event := none, phase := .done, worker := .ended }) with scheduler := s.notify i } := by
    simp [step, State.signal, State.act, hc, hd, hs, State.set]
  refine State.MovesWithin.after ?_ (a := .exit i) trivial hu
  cases s with
  | running => exact absurd rfl hseat
  | resuming j b =>
      have hj : j = i := by
        by_contra hne
        exact hseat (if_neg hne)
      subst hj
      exact movesWithin_check (by simp [Scheduler.notify]) (Function.update_self ..) (by simp)
  | joining j =>
      have hj : j = i := by
        by_contra hne
        exact hseat (if_neg hne)
      subst hj
      exact movesWithin_join rfl (Function.update_self ..) rfl

/-- The body of the request goes on. -/
theorem moving_of_body (hc : q.controller i = some c) (hworker : c.worker = .body) :
    q.MovesWithin i n := State.Moving.now (.inr ⟨c, hc, hworker⟩)

/-- The thread of the controller looks at its wait, and goes on. -/
theorem movesWithin_act {a : Action ι E} {f : Controller E → Option (Controller E)} {c d : Controller E}
    (hc : q.controller i = some c) (hd : f c = some d) (ha : a.Passive) (hstep : step q a = q.act i f)
    (h : (q.set i (some d)).MovesWithin i n) : q.MovesWithin i (n + 1) := by
  refine h.after ha ?_
  rw [hstep, State.act, hc]
  show (f c).map _ = _
  rw [hd]
  rfl

end Moves

/-- **No wake-up is lost.**  The scheduler can always resume a controller, or stop it; and
while it waits for one, at most three steps that wake nobody for no reason let it go on, or
the body of that request does. -/
theorem scheduler_moves {q : State ι E} (hq : (machine ι E).Reachable q) {i : ι} :
    (q.scheduler = .running → q.controller i ≠ none →
      step q (.resume i) ≠ none ∧ step q (.destroy i) ≠ none) ∧
    (q.scheduler.seat i ≠ .away → q.MovesWithin i 3) := by
  have hsound := machine_invariant.reachable hq
  constructor
  · intro hs hne
    obtain ⟨c, hc⟩ := Option.ne_none_iff_exists'.mp hne
    have hfit := hsound.fits hc
    rw [hs] at hfit
    have hidle : c.phase ≠ .running ∧ c.stopping = false := by
      cases hfit <;> simp
    refine ⟨?_, by simp [step, hs, hc]⟩
    simp only [step, hs, hc, hidle.1, hidle.2]
    split <;> simp
  · intro hseat
    obtain ⟨c, hc⟩ := hsound.present hseat
    have hfit := hsound.fits hc
    cases hs : q.scheduler with
    | running => exact absurd (by rw [hs]; rfl) hseat
    | resuming j b =>
        have hj : j = i := by
          by_contra hne
          exact hseat (by rw [hs]; exact if_neg hne)
        subst hj
        rw [hs, seat_resuming] at hfit
        cases hfit with
        | starting =>
            exact movesWithin_act (f := Controller.start) hc rfl (a := .start j) trivial rfl
              (moving_of_body (Function.update_self ..) rfl)
        | working => exact moving_of_body hc rfl
        | leaving => exact movesWithin_exit hs (by simp) hc rfl
        | handing => exact movesWithin_check hs hc (by simp)
        | resumed =>
            exact movesWithin_act (f := Controller.proceed) hc rfl (a := .proceed j) trivial rfl
              (moving_of_body (Function.update_self ..) rfl)
        | finishing => exact movesWithin_check hs hc (by simp)
    | joining j =>
        have hj : j = i := by
          by_contra hne
          exact hseat (by rw [hs]; exact if_neg hne)
        subst hj
        rw [hs, seat_joining] at hfit
        cases hfit with
        | stopFresh =>
            exact movesWithin_act (f := Controller.start) hc rfl (a := .start j) trivial rfl
              (movesWithin_exit hs (by simp) (Function.update_self ..) rfl)
        | stopPaused =>
            exact movesWithin_act (f := Controller.proceed) hc rfl (a := .proceed j) trivial rfl
              (moving_of_body (Function.update_self ..) rfl)
        | stopWorking => exact moving_of_body hc rfl
        | stopLeaving => exact movesWithin_exit hs (by simp) hc rfl
        | stopped => exact movesWithin_join hs hc rfl

theorem scheduler_moves_turns : ∃ q, (machine Bool ℕ).Reachable q ∧ q.MovesWithin false 3 := by
  have hrun : ((machine Bool ℕ).run beginning.1 (turns ++ [.destroy false])).any
      (fun q => decide (q.scheduler.seat false ≠ .away)) = true := by decide
  obtain ⟨q, hq, h⟩ := Machine.exists_reachable history_init.1 hrun
  exact ⟨q, hq, (scheduler_moves hq).2 (of_decide_eq_true h)⟩

end Qw3.Serving
