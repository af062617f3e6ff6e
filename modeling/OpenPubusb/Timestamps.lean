import OpenPubusb.PublishTimes
import OpenPubusb.SeekTime

/-! Times of the API, as seconds and nanoseconds, and the milliseconds of the core. The
seek request hands a client's time over unchecked; its conversion clamps the product but
not the sum. -/

namespace OpenPubusb

structure Timestamp where
  seconds : Int
  nanos : Int
  deriving DecidableEq

/-- What the wire type allows of the seconds, and the API of the nanoseconds. -/
structure Timestamp.Valid (ts : Timestamp) : Prop where
  seconds : i64Min ≤ ts.seconds ∧ ts.seconds ≤ i64Max
  nanos : 0 ≤ ts.nanos ∧ ts.nanos < 10 ^ 9

def msToTimestamp (ms : Int) : Timestamp := ⟨ms.ediv 1000, ms.emod 1000 * 1000000⟩

def timestampToMs (ts : Timestamp) : Int :=
  wrapI64 (satMulI64 ts.seconds 1000 + ts.nanos.tdiv 1000000)

/-- `timestamp_to_ms`, which fails where its sum leaves `i64`. -/
def timestampToMsChecked (ts : Timestamp) : Option Int :=
  inI64 (satMulI64 ts.seconds 1000 + ts.nanos.tdiv 1000000)

inductive Code where
  | notFound
  | alreadyExists
  | invalidArgument
  | failedPrecondition
  | resourceExhausted
  | unavailable
  | unimplemented
  | internal
  deriving DecidableEq

structure Status where
  code : Code
  message : String

def toStatus : Error → Status
  | .notFound resource => ⟨.notFound, resource ++ " not found"⟩
  | .alreadyExists resource => ⟨.alreadyExists, resource ++ " already exists"⟩
  | .invalidArgument field message => ⟨.invalidArgument, field ++ ": " ++ message⟩
  | .failedPrecondition message => ⟨.failedPrecondition, message⟩
  | .resourceExhausted message => ⟨.resourceExhausted, message⟩
  | .unavailable message => ⟨.unavailable, message⟩
  | .unimplemented method => ⟨.unimplemented, method ++ " is not implemented"⟩
  | .internal _ => ⟨.internal, "internal error"⟩

def mapErr {α : Type} (m : EngineM α) : EStateM Status Engine α := fun s =>
  match m s with
  | .ok a t => .ok a t
  | .error e t => .error (toStatus e) t

inductive SeekTarget where
  | time (ts : Timestamp)
  | snapshot (name : String)

structure SeekRequest where
  subscription : String
  target : Option SeekTarget

def seek (req : SeekRequest) : EStateM Status Engine Unit :=
  match req.target with
  | some (.time ts) => mapErr (PubSubService.seekToTime req.subscription (timestampToMs ts))
  | some (.snapshot name) => mapErr (PubSubService.seekToSnapshot req.subscription name)
  | none => throw ⟨.invalidArgument, "seek requires either time or snapshot"⟩

/-- The order of times. -/
def Timestamp.le (a b : Timestamp) : Prop :=
  a.seconds < b.seconds ∨ a.seconds = b.seconds ∧ a.nanos ≤ b.nanos

/-- The sum stays below the clamp, or adds nothing to it. -/
def Timestamp.Fits (ts : Timestamp) : Prop :=
  1000 * ts.seconds + ts.nanos / 1000000 ≤ i64Max ∨ ts.nanos < 1000000

/-- Where the earlier time is clamped from below, its milliseconds do not overtake. -/
def ClampedInOrder (a b : Timestamp) : Prop :=
  1000 * a.seconds < i64Min →
    a.nanos / 1000000 ≤ max (1000 * b.seconds - i64Min) 0 + b.nanos / 1000000

/-- In every state reached, whatever the seek to `a` marks done, the seek to `b` does. -/
def SeeksInOrder (a b : Timestamp) : Prop :=
  ∀ (is : List Input) (name : String) (sub : SubscriptionRecord),
    SubscriptionStore.get (Run.final step start is).kv name = .ok sub →
    ∃ t t' c c', seek ⟨name, some (.time a)⟩ (Run.final step start is) = .ok () t ∧
      seek ⟨name, some (.time b)⟩ (Run.final step start is) = .ok () t' ∧
      t.kv.cursors.get sub.id = some c ∧ t'.kv.cursors.get sub.id = some c' ∧
      ∀ q, c.isDone q = true → c'.isDone q = true

section Conversion

variable {a b ts : Timestamp}

theorem wrapI64_of_range {x : Int} (hlo : i64Min ≤ x) (hhi : x ≤ i64Max) : wrapI64 x = x := by
  unfold i64Min at hlo
  unfold i64Max at hhi
  exact Int.bmod_eq_of_le (by omega) (by omega)

theorem Timestamp.Valid.sum_cases (h : ts.Valid) :
    satMulI64 ts.seconds 1000 + ts.nanos.tdiv 1000000 =
      (if 1000 * ts.seconds < i64Min then i64Min
        else if i64Max < 1000 * ts.seconds then i64Max else 1000 * ts.seconds) +
        ts.nanos / 1000000 := by
  rw [Int.tdiv_eq_ediv_of_nonneg h.nanos.1]
  unfold satMulI64 satI64 i64Min i64Max
  split_ifs <;> omega

theorem timestampToMs_msToTimestamp {ms : Int} (hms : i64Min ≤ ms ∧ ms ≤ i64Max) :
    timestampToMs (msToTimestamp ms) = ms ↔ -9223372036854775000 ≤ ms := by
  have hvalid : (msToTimestamp ms).Valid := by
    refine ⟨?_, ?_⟩
    · change i64Min ≤ ms / 1000 ∧ ms / 1000 ≤ i64Max
      unfold i64Min i64Max at *
      omega
    · change 0 ≤ ms % 1000 * 1000000 ∧ ms % 1000 * 1000000 < 10 ^ 9
      omega
  have hsum := hvalid.sum_cases
  have hseconds : (msToTimestamp ms).seconds = ms / 1000 := rfl
  have hnanos : (msToTimestamp ms).nanos = ms % 1000 * 1000000 := rfl
  unfold timestampToMs
  rw [hsum, hseconds, hnanos, Int.mul_ediv_cancel _ (by decide)]
  unfold i64Min i64Max at hms ⊢
  rw [wrapI64_of_range]
  · split_ifs <;> omega
  · unfold i64Min
    split_ifs <;> omega
  · unfold i64Max
    split_ifs <;> omega

/-- The sum overflows exactly where a clamped or nearly clamped product has something
added. -/
theorem timestampToMsChecked_iff (h : ts.Valid) :
    timestampToMsChecked ts = some (timestampToMs ts) ↔ ts.Fits := by
  have hnanos := h.nanos
  have hsum : (i64Min ≤ satMulI64 ts.seconds 1000 + ts.nanos.tdiv 1000000 ∧
      satMulI64 ts.seconds 1000 + ts.nanos.tdiv 1000000 ≤ i64Max) ↔ ts.Fits := by
    rw [h.sum_cases]
    unfold Timestamp.Fits i64Min i64Max
    split_ifs <;> omega
  unfold timestampToMsChecked inI64
  rw [← hsum]
  split_ifs with hin
  · unfold timestampToMs
    rw [wrapI64_of_range hin.1 hin.2]
    exact iff_of_true rfl hin
  · exact iff_of_false nofun hin

theorem timestampToMs_of_fits (h : ts.Valid) (hfits : ts.Fits) : timestampToMs ts =
    (if 1000 * ts.seconds < i64Min then i64Min
      else if i64Max < 1000 * ts.seconds then i64Max else 1000 * ts.seconds) +
      ts.nanos / 1000000 := by
  have hchecked := (timestampToMsChecked_iff h).mpr hfits
  unfold timestampToMsChecked inI64 at hchecked
  rw [← h.sum_cases]
  split_ifs at hchecked
  exact (Option.some.inj hchecked).symm

theorem timestampToMs_le_iff (ha : a.Valid) (hb : b.Valid) (hle : a.le b) (hfa : a.Fits)
    (hfb : b.Fits) : timestampToMs a ≤ timestampToMs b ↔ ClampedInOrder a b := by
  have hna := ha.nanos
  have hnb := hb.nanos
  rw [timestampToMs_of_fits ha hfa, timestampToMs_of_fits hb hfb]
  unfold Timestamp.Fits at hfa hfb
  unfold Timestamp.le at hle
  unfold ClampedInOrder
  unfold i64Max at *
  unfold i64Min at *
  split_ifs <;> omega

end Conversion

theorem seqBoundaryForTime_mono (kv : Kv) (topicId : Nat) {earlier later : Int}
    (h : earlier ≤ later) : TopicStore.seqBoundaryForTime kv topicId earlier ≤
      TopicStore.seqBoundaryForTime kv topicId later := by
  rw [TopicStore.seqBoundaryForTime, TopicStore.seqBoundaryForTime, boundarySearch_eq,
    boundarySearch_eq]
  refine Bisect.search_mono (fun n hn => ?_) (by omega)
  unfold before at hn ⊢
  rw [decide_eq_true_eq] at hn ⊢
  omega

theorem mapErr_ok {α : Type} {m : EngineM α} {s t : Engine} {x : α} (h : m s = .ok x t) :
    mapErr m s = .ok x t := by
  unfold mapErr
  rw [h]

theorem seeksInOrder_of_le {a b : Timestamp} (h : timestampToMs a ≤ timestampToMs b) :
    SeeksInOrder a b := by
  intro is name sub hsub
  have hwf := wellFormed_final is
  have hcons := (consistent_final is).1
  obtain ⟨c, t, hc, hseek, hrestored⟩ := seekToTime_restores hwf hcons hsub (timestampToMs a)
  obtain ⟨c', t', hc', hseek', hrestored'⟩ := seekToTime_restores hwf hcons hsub (timestampToMs b)
  rw [hc, Option.some.injEq] at hc'
  subst hc'
  refine ⟨t, t', _, _, mapErr_ok hseek, mapErr_ok hseek', hrestored.cursor, hrestored'.cursor,
    fun q hq => ?_⟩
  have hmono := seqBoundaryForTime_mono (Run.final step start is).kv sub.topicId h
  rw [CursorRecord.fresh_isDone] at hq ⊢
  omega

/-- The conversion reads a printed time back from the first full second of `i64` on, stays
in range where its sum fits, and orders times, and seeks to them, where in addition none
is clamped from below past the other. -/
theorem timestamps_converted_iff (ms : Int) (a b : Timestamp) (hms : i64Min ≤ ms ∧ ms ≤ i64Max)
    (ha : a.Valid) (hb : b.Valid) (hle : a.le b) :
    (timestampToMs (msToTimestamp ms) = ms ↔ -9223372036854775000 ≤ ms) ∧
    (timestampToMsChecked a = some (timestampToMs a) ↔ a.Fits) ∧
    ((timestampToMsChecked a = some (timestampToMs a) ∧
        timestampToMsChecked b = some (timestampToMs b) ∧ timestampToMs a ≤ timestampToMs b ∧
        SeeksInOrder a b) ↔
      a.Fits ∧ b.Fits ∧ ClampedInOrder a b) := by
  refine ⟨timestampToMs_msToTimestamp hms, timestampToMsChecked_iff ha, ?_⟩
  rw [timestampToMsChecked_iff ha, timestampToMsChecked_iff hb]
  constructor
  · rintro ⟨hfa, hfb, hmono, _⟩
    exact ⟨hfa, hfb, (timestampToMs_le_iff ha hb hle hfa hfb).mp hmono⟩
  · rintro ⟨hfa, hfb, horder⟩
    have hmono := (timestampToMs_le_iff ha hb hle hfa hfb).mpr horder
    exact ⟨hfa, hfb, hmono, seeksInOrder_of_le hmono⟩

theorem timestamps_converted_iff_last : timestampToMs ⟨9223372036854775, 807999999⟩ = i64Max ∧
    timestampToMs (msToTimestamp 1700000123456) = 1700000123456 ∧
    timestampToMsChecked ⟨1, 0⟩ = some (timestampToMs ⟨1, 0⟩) ∧
    SeeksInOrder ⟨1, 0⟩ ⟨9223372036854775, 807999999⟩ := by
  obtain ⟨hround, hchecked, hseeks⟩ := timestamps_converted_iff 1700000123456 ⟨1, 0⟩
    ⟨9223372036854775, 807999999⟩ (by decide) ⟨by decide, by decide⟩ ⟨by decide, by decide⟩
    (Or.inl (by decide))
  have hfits : Timestamp.Fits ⟨1, 0⟩ ∧ Timestamp.Fits ⟨9223372036854775, 807999999⟩ ∧
      ClampedInOrder ⟨1, 0⟩ ⟨9223372036854775, 807999999⟩ :=
    ⟨Or.inr (by decide), Or.inl (by decide), fun h => absurd h (by decide)⟩
  exact ⟨by decide, hround.mpr (by decide), hchecked.mpr hfits.1, (hseeks.mpr hfits).2.2.2⟩

/-- A time of the far future becomes the first of all times: the seek replays the backlog
that a seek to an earlier time drains. -/
theorem far_future_replays :
    (¬ ∀ a b : Timestamp, a.Valid → b.Valid → a.le b →
      timestampToMsChecked b = some (timestampToMs b) ∧ timestampToMs a ≤ timestampToMs b) ∧
    afterSeek (Run.final step start (setup {})) "projects/p/subscriptions/subA"
      (timestampToMs ⟨1, 0⟩) = some (0, some 0, true) ∧
    afterSeek (Run.final step start (setup {})) "projects/p/subscriptions/subA"
      (timestampToMs ⟨9223372036854776, 1000000⟩) = some (0, some 0, false) := by
  refine ⟨fun h => ?_, by decide +kernel, by decide +kernel⟩
  have hmono := (h ⟨1, 0⟩ ⟨9223372036854776, 1000000⟩ ⟨by decide, by decide⟩
    ⟨by decide, by decide⟩ (Or.inl (by decide))).2
  exact absurd hmono (by decide)

end OpenPubusb
