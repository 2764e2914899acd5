import Mathlib.Data.List.Forall2
import Tremor.Proofs.RingRun
import Tremor.Waveform.Extract

/-!
# Rings without signals

The ring of a server is that of a client without the signals: leaving them out (`Ring.bare`) commutes with every
operation, and nothing but the look-up of a signal depends on them. So the two can be asked the same things and give
the same answers.

- `bare_push`, `bare_copyRange`, `bare_extract` : leaving out the signals before or after
- `Ring.Request`, `Ring.session` : what can be asked of a ring, one thing after another
- `bare_request` : leaving out the signals before or after a request
- `Kept.request`, `Kept.session` : what is kept by the changes of a ring is kept in a session
- `client_kept` : a client keeps its signals
- `server_agrees` : all that a ring of a server has in common with one of a client
-/

namespace Tremor.Ring

/-! ## Leaving out the signals -/

/-- The ring without its signals. -/
def bare {R : Type} (r : Ring R) : Ring R := { r with server := true, signals := #[] }

variable {R : Type} [Scalar R]

theorem bare_store (r : Ring R) (time : Int64) (signal signal' : Signal) (ratios : Ratios) :
    (r.store time signal ratios).bare = r.bare.store time signal' ratios := rfl

/-- A sample is taken in, whatever its signal. -/
theorem bare_push (r : Ring R) (time : Int64) (signal signal' : Signal) (ratios : Ratios) (expand : Bool) :
    (r.push time signal ratios expand).bare = r.bare.push time signal' ratios expand := by
  have hclock : r.bare.clock = r.clock := rfl
  have hfull : (expand && !r.bare.isEmpty && r.bare.next == r.bare.oldest) =
      (expand && !r.isEmpty && r.next == r.oldest) := rfl
  unfold push
  rw [hclock, hfull]
  split
  · rfl
  · split
    · exact bare_store (r.withSize (r.size * 2)) time signal signal' ratios
    · exact bare_store r time signal signal' ratios

theorem bare_create (sampleRate seconds : R) :
    create sampleRate seconds true = (create sampleRate seconds false).map bare := by
  unfold create
  cases slotCount sampleRate seconds <;> rfl

theorem bare_resize (r : Ring R) (seconds : R) : r.bare.resize seconds = (r.resize seconds).map bare := by
  have hrate : r.bare.sampleRate = r.sampleRate := rfl
  unfold resize
  rw [hrate]
  cases slotCount r.sampleRate seconds <;> rfl

theorem bare_closest (r : Ring R) (time : Int64) : r.bare.closest time = r.closest time := rfl

/-- Copying goes by times and ratios alone. -/
theorem bare_copyRange (source : Ring R) (start stop : Int64) (steps slot : Nat) (target : Ring R) :
    (source.copyRange start stop steps slot target).bare =
      source.bare.copyRange start stop steps slot target.bare := by
  have htime : ∀ i, source.bare.time i = source.time i := fun _ => rfl
  induction steps generalizing slot target with
  | zero => rfl
  | succ steps ih =>
    simp only [copyRange, htime]
    split
    · rfl
    · split
      · rw [ih, bare_push]
        rfl
      · exact ih _ _

theorem bare_extract {r : Ring R} (hr : r.server = false) (start stop : Int64) :
    r.bare.extract start stop = (r.extract start stop).map bare := by
  have hrate : r.bare.sampleRate = r.sampleRate := rfl
  have hempty : r.bare.isEmpty = r.isEmpty := rfl
  have hserver : r.bare.server = true := rfl
  have hcreate := bare_create r.sampleRate
    (Scalar.floor (Scalar.ceil (Scalar.ofInt64 (R := R) (stop - start) / 1000) * headroom))
  unfold extract
  by_cases hlt : stop ≤ start
  · rw [if_pos hlt, if_pos hlt]
    rfl
  · rw [if_neg hlt, if_neg hlt]
    simp only [hrate, hempty, hserver, hr, bare_closest, hcreate]
    cases create r.sampleRate _ false with
    | error e => rfl
    | ok target =>
      cases r.isEmpty with
      | true => rfl
      | false =>
        cases r.closest start with
        | error e => rfl
        | ok first => exact congrArg Except.ok (bare_copyRange r start stop _ first target).symm

/-! ## Sessions -/

/-- What can be asked of a ring. -/
inductive Request (R : Type) where
  | log (time : Int64) (signal : Signal) (levels : Levels) (expand : Bool)
  | resize (seconds : R)
  /-- The samples between two times; with `keep` the new ring takes the place of the old one. -/
  | extract (start stop : Int64) (keep : Bool)
  | closest (time : Int64)

/-- What is given for it, apart from errors. -/
inductive Answer (R : Type) where
  | done
  | slot (slot : Nat)
  | ring (r : Ring R)

/-- An answer without the signals. -/
def Answer.bare : Answer R → Answer R
  | .done => .done
  | .slot place => .slot place
  | .ring r => .ring r.bare

/-- The answer to a request, and the ring after it. -/
def request (r : Ring R) : Request R → Except (RingError R) (Answer R) × Ring R
  | .log time signal levels expand => (.ok .done, r.log time signal levels expand)
  | .resize seconds =>
    match r.resize seconds with
    | .ok r' => (.ok .done, r')
    | .error e => (.error e, r)
  | .extract start stop keep =>
    match r.extract start stop with
    | .ok r' => (.ok (.ring r'), if keep then r' else r)
    | .error e => (.error e, r)
  | .closest time => ((r.closest time).map .slot, r)

/-- The answers to requests that are made one after another, each with the ring after it. -/
def session (r : Ring R) : List (Request R) → List (Except (RingError R) (Answer R) × Ring R)
  | [] => []
  | q :: qs => r.request q :: session (r.request q).2 qs

/-- A property of rings that new ones for the same rate have, and that taking samples in and changing the capacity keep. -/
structure Kept (P : Ring R → Prop) : Prop where
  create : ∀ {r r' seconds}, P r → create r.sampleRate seconds r.server = .ok r' → P r'
  push : ∀ {r} time signal ratios expand, P r → P (r.push time signal ratios expand)
  resize : ∀ {r r' seconds}, P r → r.resize seconds = .ok r' → P r'

variable {P : Ring R → Prop}

theorem Kept.copyRange (h : Kept P) {target : Ring R} (ht : P target) (source : Ring R) (start stop : Int64)
    (steps slot : Nat) : P (source.copyRange start stop steps slot target) := by
  induction steps generalizing slot target with
  | zero => exact ht
  | succ steps ih =>
    simp only [Ring.copyRange]
    split
    · exact ht
    · split
      · exact ih (h.push _ _ _ _ ht) _
      · exact ih ht _

/-- Samples are copied to a new ring. -/
theorem Kept.extract (h : Kept P) {r r' : Ring R} (hr : P r) {start stop : Int64}
    (hex : r.extract start stop = .ok r') : P r' := by
  unfold Ring.extract at hex
  split at hex
  · cases hex
  · simp only at hex
    cases hc : Ring.create r.sampleRate (Scalar.floor (Scalar.ceil (Scalar.ofInt64 (stop - start) / 1000) * headroom))
        r.server with
    | error e =>
      rw [hc] at hex
      cases hex
    | ok target =>
      have ht := h.create hr hc
      rw [hc] at hex
      cases he : r.isEmpty with
      | true =>
        rw [he] at hex
        cases hex
        exact ht
      | false =>
        rw [he] at hex
        cases hf : r.closest start with
        | error e =>
          rw [hf] at hex
          cases hex
        | ok first =>
          rw [hf] at hex
          cases hex
          exact h.copyRange ht ..

/-- A kept property holds of the ring after a request, and of one that is extracted. -/
theorem Kept.request (h : Kept P) {r : Ring R} (hr : P r) (q : Request R) :
    P (r.request q).2 ∧ ∀ r', (r.request q).1 = .ok (.ring r') → P r' := by
  cases q with
  | log time signal levels expand => exact ⟨h.push _ _ _ _ hr, fun r' ha => by cases ha⟩
  | resize seconds =>
    simp only [Ring.request]
    cases hc : r.resize seconds with
    | error e => exact ⟨hr, fun r' ha => by cases ha⟩
    | ok r' => exact ⟨h.resize hr hc, fun r' ha => by cases ha⟩
  | extract start stop keep =>
    simp only [Ring.request]
    cases hc : r.extract start stop with
    | error e => exact ⟨hr, fun r' ha => by cases ha⟩
    | ok r' =>
      have hex := h.extract hr hc
      refine ⟨?_, fun r'' ha => by cases ha; exact hex⟩
      cases keep
      · exact hr
      · exact hex
  | closest time =>
    simp only [Ring.request]
    refine ⟨hr, fun r' ha => ?_⟩
    cases hc : r.closest time <;> rw [hc] at ha <;> cases ha

/-- A kept property holds after every step of a session, and of every ring that is extracted in it. -/
theorem Kept.session (h : Kept P) {r : Ring R} (hr : P r) (qs : List (Request R)) :
    ∀ step ∈ r.session qs, P step.2 ∧ ∀ r', step.1 = .ok (.ring r') → P r' := by
  induction qs generalizing r with
  | nil => exact fun step hs => by cases hs
  | cons q qs ih =>
    have hq := h.request hr q
    intro step hs
    rcases List.mem_cons.mp hs with rfl | hs
    · exact hq
    · exact ih hq.1 step hs

/-- One step of a session, with the signals or without. -/
theorem bare_request {r : Ring R} (hr : r.server = false) (q : Request R) :
    r.bare.request q = ((r.request q).1.map Answer.bare, (r.request q).2.bare) := by
  cases q with
  | log time signal levels expand =>
    simp only [request, log]
    rw [← bare_push r time signal signal]
    rfl
  | resize seconds =>
    simp only [request]
    rw [bare_resize]
    cases r.resize seconds <;> rfl
  | extract start stop keep =>
    simp only [request]
    rw [bare_extract hr]
    cases r.extract start stop with
    | error e => rfl
    | ok r' => cases keep <;> rfl
  | closest time =>
    simp only [request]
    rw [bare_closest]
    cases r.closest time <;> rfl

/-! ## Rings of clients -/

/-- A sound ring that keeps its signals. -/
structure Client (r : Ring R) : Prop where
  sound : r.Sound
  server : r.server = false

theorem client_create {sampleRate seconds : Float} {r : Ring Float} (h : create sampleRate seconds false = .ok r) :
    r.Client := by
  obtain ⟨hs, -, hq⟩ := sound_create h
  exact ⟨hs, congrArg Queue.server hq⟩

theorem Client.push {r : Ring R} (h : r.Client) (time : Int64) (signal : Signal) (ratios : Ratios) (expand : Bool) :
    (r.push time signal ratios expand).Client := by
  refine ⟨h.sound.push time signal ratios expand, ?_⟩
  unfold Ring.push
  split
  · exact h.server
  · split <;> exact h.server

theorem Client.resize {r r' : Ring Float} (h : r.Client) {seconds : Float} (hr : r.resize seconds = .ok r') :
    r'.Client := by
  unfold Ring.resize at hr
  cases hc : slotCount r.sampleRate seconds with
  | error e =>
    rw [hc] at hr
    cases hr
  | ok n =>
    rw [hc] at hr
    cases hr
    exact ⟨sound_withSize r (slotCount_pos hc), h.server⟩

/-- Nothing that is asked of the ring of a client loses its signals, nor does an extracted ring lack them. -/
theorem client_kept : Kept fun r : Ring Float => r.Client where
  create h hc := by
    rw [h.server] at hc
    exact client_create hc
  push time signal ratios expand h := h.push time signal ratios expand
  resize h hr := h.resize hr

/-! ## Agreement -/

/-- What the ring `s` of a server and the ring `c` of a client have in common, and the signals that only `c` has. -/
structure Twins (s c : Ring R) : Prop where
  size : s.size = c.size
  len : s.len = c.len
  next : s.next = c.next
  oldest : s.oldest = c.oldest
  newest : s.newest = c.newest
  latest : s.latest = c.latest
  interval : s.interval = c.interval
  time : ∀ slot, s.time slot = c.time slot
  ratiosAt : ∀ slot, s.ratiosAt slot = c.ratiosAt slot
  withheld : ∀ slot, s.signalAt slot = .error .unsupportedInServerMode ∧
    s.entryAt slot = .error .unsupportedInServerMode
  supported : ∀ slot, c.signalAt slot ≠ .error .unsupportedInServerMode ∧
    c.entryAt slot ≠ .error .unsupportedInServerMode
  kept : ∀ slot < c.size, ∃ ratios signal, c.ratiosAt slot = .ok ratios ∧ c.signalAt slot = .ok signal ∧
    c.entryAt slot = .ok { time := c.time slot, ratios, signal }

/-- The answers of a server and of a client to the same request. -/
inductive Agree : Except (RingError R) (Answer R) → Except (RingError R) (Answer R) → Prop
  | error (e : RingError R) : Agree (.error e) (.error e)
  | done : Agree (.ok .done) (.ok .done)
  | slot (slot : Nat) : Agree (.ok (.slot slot)) (.ok (.slot slot))
  | ring {s c : Ring R} (h : Twins s c) : Agree (.ok (.ring s)) (.ok (.ring c))

theorem Client.twins {c : Ring R} (h : c.Client) : Twins c.bare c where
  size := rfl
  len := rfl
  next := rfl
  oldest := rfl
  newest := rfl
  latest := rfl
  interval := rfl
  time _ := rfl
  ratiosAt _ := rfl
  withheld _ := ⟨rfl, rfl⟩
  supported slot := by
    have hs := h.server
    simp only [entryAt, signalAt, hs]
    cases c.signals[slot]? with
    | none => exact ⟨nofun, nofun⟩
    | some signal =>
      refine ⟨nofun, ?_⟩
      simp only [ratiosAt]
      cases c.ratios[slot]? <;> exact nofun
  kept slot hslot := by
    have hs := h.server
    have hratios : slot < c.ratios.size := by
      rw [h.sound.size_ratios]
      exact hslot
    have hsignals : slot < c.signals.size := by
      rw [h.sound.size_signals, hs]
      exact hslot
    refine ⟨c.ratios[slot], c.signals[slot], ?_⟩
    simp [entryAt, signalAt, ratiosAt, hs, hratios, hsignals]
    rfl

theorem Client.agree {r : Ring Float} (h : r.Client) (q : Request Float) :
    Agree (r.bare.request q).1 (r.request q).1 := by
  obtain ⟨-, hring⟩ := client_kept.request h q
  rw [bare_request h.server]
  cases ha : (r.request q).1 with
  | error e => exact .error e
  | ok answer =>
    cases answer with
    | done => exact .done
    | slot slot => exact .slot slot
    | ring r' => exact .ring (hring r' ha).twins

/-- The sessions of a client and of its ring without signals go in step. -/
theorem Client.session {r : Ring Float} (h : r.Client) (qs : List (Request Float)) :
    List.Forall₂ (fun s c => Agree s.1 c.1 ∧ Twins s.2 c.2) (r.bare.session qs) (r.session qs) := by
  induction qs generalizing r with
  | nil => exact .nil
  | cons q qs ih =>
    obtain ⟨hnext, -⟩ := client_kept.request h q
    have hbare : (r.bare.request q).2 = (r.request q).2.bare := by rw [bare_request h.server]
    refine .cons ⟨h.agree q, ?_⟩ ?_
    · rw [hbare]
      exact hnext.twins
    · rw [hbare]
      exact ih hnext

/-- A ring can be made for a server exactly when one can be made for a client, and fails to be for the same reason.
Whatever the two are asked, one thing after another, the answers agree, also about extracted rings, and the rings have
all in common but the signals after every step. -/
theorem server_agrees (sampleRate seconds : Float) :
    (∃ e, create sampleRate seconds true = .error e ∧ create sampleRate seconds false = .error e) ∨
      ∃ s c : Ring Float, create sampleRate seconds true = .ok s ∧ create sampleRate seconds false = .ok c ∧
        Twins s c ∧ ∀ qs : List (Request Float),
          List.Forall₂ (fun s' c' => Agree s'.1 c'.1 ∧ Twins s'.2 c'.2) (s.session qs) (c.session qs) := by
  have hbare := bare_create sampleRate seconds
  cases hc : create sampleRate seconds false with
  | error e =>
    rw [hc] at hbare
    exact Or.inl ⟨e, hbare, rfl⟩
  | ok c =>
    have h := client_create hc
    rw [hc] at hbare
    exact Or.inr ⟨c.bare, c, hbare, rfl, h.twins, h.session⟩

end Tremor.Ring
