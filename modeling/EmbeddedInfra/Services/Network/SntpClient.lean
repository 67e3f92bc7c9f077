import Mathlib.Tactic

set_option autoImplicit false

/-! # Timestamps of the SNTP client

`SntpClient::Convert` makes an NTP timestamp of a time, `NtpTimestamp::Convert` a time of a timestamp, and
`NotifyOffsetAndDelay` reports what the timestamps of a reply tell about the local clock. The fraction is computed
from the whole time and not from its last second: what the whole seconds contribute does not vanish modulo `2^32`.
-/

namespace EmbeddedInfra.SntpClient

/-! ## Conversion

A `std::chrono::system_clock::duration` is a number of nanoseconds. -/

def seconds (count : Int) : Int := count * 1000000000

def microseconds (count : Int) : Int := count * 1000

/-- `duration_cast<std::chrono::seconds>(duration).count()` -/
def secondsCount (duration : Int) : Int := duration.tdiv 1000000000

/-- `duration_cast<std::chrono::microseconds>(duration).count()` -/
def microsecondsCount (duration : Int) : Int := duration.tdiv 1000

/-- The seconds in seventy years. -/
def epochOffset : Int := (70 * 365 + 17) * 86400

def ntpEpochOffset : Int := seconds epochOffset

/-- `2^32 / 10^6` -/
def ntpFractionFactor : Int := 4295

structure NtpTimestamp where
  seconds : UInt32
  fraction : UInt32

def NtpTimestamp.convert (timestamp : NtpTimestamp) : Int :=
  SntpClient.seconds timestamp.seconds.toNat + microseconds (timestamp.fraction.toNat / ntpFractionFactor) -
    ntpEpochOffset

/-- The product is one of `int64_t`, which may overflow. -/
def convert (time : Int) : Option NtpTimestamp :=
  let fraction := microsecondsCount time * ntpFractionFactor
  if -2 ^ 63 ≤ fraction ∧ fraction < 2 ^ 63 then
    some
      { seconds := UInt32.ofInt (secondsCount (time + ntpEpochOffset))
        fraction := UInt32.ofInt fraction }
  else none

/-! ## Offset and delay -/

structure NtpMessage where
  originate : NtpTimestamp
  receive : NtpTimestamp
  transmit : NtpTimestamp

/-- The arguments of `TimeAvailable`. -/
structure TimeAvailable where
  roundTripDelay : Int
  localClockOffset : Int

def notifyOffsetAndDelay (message : NtpMessage) (now : Int) : TimeAvailable :=
  let t1 := message.originate.convert
  let t2 := message.receive.convert
  let t3 := message.transmit.convert
  let t4 := now
  { roundTripDelay := (t4 - t1) - (t3 - t2)
    localClockOffset := ((t2 - t1) + (t3 - t4)).tdiv 2 }

/-! ## What is promised -/

/-- A time in microseconds, before or after 1970, is in the era that began in 1900. -/
def InEra (time : Int) : Prop := 0 ≤ time + epochOffset * 1000000 ∧ time + epochOffset * 1000000 < 2 ^ 32 * 1000000

/-- The time comes back, up to ten microseconds, and the fraction is less than a second. -/
def ConvertsBack (time : Int) : Prop :=
  ∃ timestamp, convert (microseconds time) = some timestamp ∧
    |timestamp.convert - microseconds time| ≤ microseconds 10 ∧
    microseconds (timestamp.fraction.toNat / ntpFractionFactor) < seconds 1

/-- The timestamp of a server: the fraction is one of `2^32`, rounded down. -/
def serverTimestamp (time : Int) : NtpTimestamp :=
  { seconds := UInt32.ofInt (time / 1000000 + epochOffset)
    fraction := UInt32.ofInt (time % 1000000 * 2 ^ 32 / 1000000) }

/-- A request at a time of the client, to a server whose clock is ahead, and whose reply is as long on its way as the
request. All are microseconds. -/
structure Exchange where
  request : Int
  offset : Int
  delay : Nat
  hold : Nat

namespace Exchange

variable (x : Exchange)

/-- When the request arrives, on the clock of the server. -/
def receive : Int := x.request + x.delay + x.offset

def transmit : Int := x.receive + x.hold

/-- When the reply arrives, on the clock of the client. -/
def reply : Int := x.request + x.delay + x.hold + x.delay

/-- The reported offset is right, up to ten microseconds. -/
def OffsetExact : Prop :=
  ∃ originate, convert (microseconds x.request) = some originate ∧
    |(notifyOffsetAndDelay
        { originate := originate
          receive := serverTimestamp x.receive
          transmit := serverTimestamp x.transmit }
        (microseconds x.reply)).localClockOffset - microseconds x.offset| ≤ microseconds 10

end Exchange

/-! ## What goes wrong -/

/-- What the whole seconds contribute to the fraction: `1000000 * 4295` is more than `2^32`. -/
def contribution (time : Int) : Int := time / 1000000 * 32704 % 2 ^ 32

/-- The product of the microseconds fits in 64 bits. -/
def Fits (time : Int) : Prop := -2 ^ 63 ≤ time * 4295 ∧ time * 4295 < 2 ^ 63

/-- The whole seconds contribute almost nothing, at most `fast` microseconds, or almost a whole second that is lost,
but for at most `slow` microseconds. -/
def Precise (slow fast time : Int) : Prop :=
  Fits time ∧
    (contribution time < (fast + 1) * 4295 ∧ contribution time + time % 1000000 * 4295 < 2 ^ 32 ∨
      2 ^ 32 - slow * 4295 ≤ contribution time ∧ 2 ^ 32 ≤ contribution time + time % 1000000 * 4295 ∧
        contribution time + time % 1000000 * 4295 < 2 * 2 ^ 32)

/-- How many microseconds a timestamp of the server is slow: `2^32` is less than `1000000 * 4295`, by 32704, and the
microsecond that has been begun is lost. -/
def lag (time : Int) : Int := (time % 1000000 * 32704 + 4294999999) / 4295000000

/-- How many microseconds the client is off. -/
def clientError (time : Int) : Int :=
  (contribution time + time % 1000000 * 4295) % 2 ^ 32 / 4295 - time % 1000000

/-! ## Proofs -/

theorem toNat_ofInt (value : Int) : ((UInt32.ofInt value).toNat : Int) = value % 2 ^ 32 := by
  have hrange : (value % 2 ^ 32).toNat < 2 ^ 32 := by omega
  rw [UInt32.ofInt, UInt32.toNat_ofNat', Nat.mod_eq_of_lt hrange, Int.toNat_of_nonneg (by omega)]

theorem microsecondsCount_microseconds (count : Int) : microsecondsCount (microseconds count) = count := by
  rw [microsecondsCount, microseconds, Int.mul_tdiv_cancel _ (by decide)]

/-- A timestamp whose seconds are those of a time. -/
theorem convert_of_seconds {time : Int} (hera : InEra time) {timestamp : NtpTimestamp}
    (hseconds : (timestamp.seconds.toNat : Int) = (time / 1000000 + epochOffset) % 2 ^ 32) :
    timestamp.convert = microseconds (time + (timestamp.fraction.toNat / 4295 - time % 1000000)) := by
  unfold InEra epochOffset at hera
  rw [NtpTimestamp.convert, hseconds]
  simp only [seconds, microseconds, ntpEpochOffset, ntpFractionFactor, epochOffset]
  rw [epochOffset] at hseconds
  omega

/-- The fraction is that of the last second and of what the whole seconds contribute. -/
theorem fraction_eq (time : Int) :
    time * 4295 % 2 ^ 32 = (contribution time + time % 1000000 * 4295) % 2 ^ 32 := by
  unfold contribution
  omega

/-- What is left of a time that is converted to a timestamp and back. -/
theorem convert_microseconds {time : Int} (hera : InEra time) (hfits : Fits time) :
    ∃ timestamp, convert (microseconds time) = some timestamp ∧
      timestamp.convert = microseconds (time + clientError time) := by
  have hseconds : secondsCount (microseconds time + ntpEpochOffset) = time / 1000000 + epochOffset := by
    unfold InEra epochOffset at hera
    have hwhole : microseconds time + ntpEpochOffset = time * 1000 + epochOffset * 1000000000 := rfl
    rw [secondsCount, hwhole, epochOffset, Int.tdiv_eq_ediv_of_nonneg (by omega)]
    omega
  refine ⟨{ seconds := UInt32.ofInt (secondsCount (microseconds time + ntpEpochOffset))
            fraction := UInt32.ofInt (time * ntpFractionFactor) }, ?_, ?_⟩
  · rw [convert, microsecondsCount_microseconds]
    exact if_pos hfits
  · rw [convert_of_seconds hera]
    · dsimp only
      rw [toNat_ofInt, ntpFractionFactor, fraction_eq, clientError]
    · dsimp only
      rw [toNat_ofInt, hseconds]

theorem convert_none {time : Int} (hfits : ¬ Fits time) : convert (microseconds time) = none := by
  rw [convert, microsecondsCount_microseconds]
  exact if_neg hfits

theorem fraction_lt_second (timestamp : NtpTimestamp) :
    microseconds (timestamp.fraction.toNat / ntpFractionFactor) < seconds 1 := by
  have hlt := timestamp.fraction.toNat_lt
  rw [microseconds, seconds, ntpFractionFactor]
  omega

/-- The client is at most so much off where the whole seconds contribute almost nothing. -/
theorem clientError_le_iff {slow fast : Int} (hslow : 0 ≤ slow) (hfast : -1 ≤ fast)
    (hsmall : slow ≤ 100 ∧ fast ≤ 100) (time : Int) :
    -slow ≤ clientError time ∧ clientError time ≤ fast ↔
      (contribution time < (fast + 1) * 4295 ∧ contribution time + time % 1000000 * 4295 < 2 ^ 32 ∨
        2 ^ 32 - slow * 4295 ≤ contribution time ∧ 2 ^ 32 ≤ contribution time + time % 1000000 * 4295 ∧
          contribution time + time % 1000000 * 4295 < 2 * 2 ^ 32) := by
  have hcontribution : 0 ≤ contribution time ∧ contribution time < 2 ^ 32 := by
    unfold contribution
    omega
  have hrest : 0 ≤ time % 1000000 ∧ time % 1000000 < 1000000 := by omega
  rw [clientError]
  generalize contribution time = part at *
  generalize time % 1000000 = rest at *
  -- how often the sum wraps
  have hwrap : (part + rest * 4295) % 2 ^ 32 = part + rest * 4295 ∧ part + rest * 4295 < 2 ^ 32 ∨
      (part + rest * 4295) % 2 ^ 32 = part + rest * 4295 - 2 ^ 32 ∧ 2 ^ 32 ≤ part + rest * 4295 ∧
        part + rest * 4295 < 2 * 2 ^ 32 ∨
      (part + rest * 4295) % 2 ^ 32 = part + rest * 4295 - 2 * 2 ^ 32 ∧ 2 * 2 ^ 32 ≤ part + rest * 4295 := by
    omega
  rcases hwrap with ⟨hvalue, hlt⟩ | ⟨hvalue, hle, hlt⟩ | ⟨hvalue, hle⟩
  · rw [hvalue]
    omega
  · rw [hvalue]
    omega
  · rw [hvalue]
    omega

theorem convertsBack_iff {time : Int} (hera : InEra time) : ConvertsBack time ↔ Precise 10 10 time := by
  rw [Precise, ← clientError_le_iff (by decide) (by decide) (by decide), ← abs_le]
  by_cases hfits : Fits time
  · obtain ⟨timestamp, hconvert, hback⟩ := convert_microseconds hera hfits
    have herror : timestamp.convert - microseconds time = microseconds (clientError time) := by
      rw [hback]
      simp only [microseconds]
      omega
    have hscale : |microseconds (clientError time)| ≤ microseconds 10 ↔ |clientError time| ≤ 10 := by
      simp only [microseconds, abs_le]
      omega
    constructor
    · rintro ⟨timestamp', hconvert', hclose, -⟩
      obtain rfl := Option.some.inj (hconvert.symm.trans hconvert')
      rw [herror, hscale] at hclose
      exact ⟨hfits, hclose⟩
    · rintro ⟨-, hclose⟩
      refine ⟨timestamp, hconvert, ?_, fraction_lt_second timestamp⟩
      rw [herror, hscale]
      exact hclose
  · constructor
    · rintro ⟨timestamp, hconvert, -⟩
      rw [convert_none hfits] at hconvert
      cases hconvert
    · rintro ⟨hfits', -⟩
      exact absurd hfits' hfits

/-- What is left of a time that a server rounds down. -/
theorem serverTimestamp_convert {time : Int} (hera : InEra time) :
    (serverTimestamp time).convert = microseconds (time - lag time) := by
  rw [convert_of_seconds hera]
  · have hfraction : time % 1000000 * 2 ^ 32 / 1000000 % 2 ^ 32 = time % 1000000 * 2 ^ 32 / 1000000 := by omega
    have hlag : time % 1000000 * 2 ^ 32 / 1000000 / 4295 - time % 1000000 = -lag time := by
      rw [lag]
      omega
    rw [serverTimestamp, toNat_ofInt, hfraction, hlag, Int.sub_eq_add_neg]
  · rw [serverTimestamp, toNat_ofInt]

theorem lag_bounds (time : Int) : 0 ≤ lag time ∧ lag time ≤ 8 := by
  rw [lag]
  omega

/-- The server's timestamps are slow, and the client's may be slow or fast. -/
theorem offsetExact_iff (x : Exchange) (hrequest : InEra x.request) (hreceive : InEra x.receive)
    (htransmit : InEra x.transmit) :
    x.OffsetExact ↔
      Precise (20 + (lag x.receive + lag x.transmit)) (20 - (lag x.receive + lag x.transmit)) x.request := by
  have hlag := lag_bounds x.receive
  have hlag' := lag_bounds x.transmit
  have herror : -(20 + (lag x.receive + lag x.transmit)) ≤ clientError x.request ∧
      clientError x.request ≤ 20 - (lag x.receive + lag x.transmit) ↔
        |lag x.receive + lag x.transmit + clientError x.request| ≤ 20 := by
    rw [abs_le]
    omega
  rw [Precise, ← clientError_le_iff (by omega) (by omega) (by omega), herror]
  by_cases hfits : Fits x.request
  · obtain ⟨timestamp, hconvert, hback⟩ := convert_microseconds hrequest hfits
    have hoffset : (notifyOffsetAndDelay
          { originate := timestamp
            receive := serverTimestamp x.receive
            transmit := serverTimestamp x.transmit }
          (microseconds x.reply)).localClockOffset =
        microseconds x.offset - 500 * (lag x.receive + lag x.transmit + clientError x.request) := by
      simp only [notifyOffsetAndDelay, hback, serverTimestamp_convert hreceive, serverTimestamp_convert htransmit]
      have hsum : microseconds (x.receive - lag x.receive) - microseconds (x.request + clientError x.request) +
            (microseconds (x.transmit - lag x.transmit) - microseconds x.reply) =
          (microseconds x.offset - 500 * (lag x.receive + lag x.transmit + clientError x.request)) * 2 := by
        simp only [microseconds, Exchange.transmit, Exchange.receive, Exchange.reply]
        generalize lag _ = lagReceive
        generalize lag _ = lagTransmit
        ring
      rw [hsum, Int.mul_tdiv_cancel _ (by decide)]
    have hscale (error : Int) : |microseconds x.offset - 500 * error - microseconds x.offset| ≤ microseconds 10 ↔
        |error| ≤ 20 := by
      simp only [microseconds, abs_le]
      omega
    constructor
    · rintro ⟨timestamp', hconvert', hclose⟩
      obtain rfl := Option.some.inj (hconvert.symm.trans hconvert')
      rw [hoffset, hscale] at hclose
      exact ⟨hfits, hclose⟩
    · rintro ⟨-, hclose⟩
      refine ⟨timestamp, hconvert, ?_⟩
      rw [hoffset, hscale]
      exact hclose
  · constructor
    · rintro ⟨timestamp, hconvert, -⟩
      rw [convert_none hfits] at hconvert
      cases hconvert
    · rintro ⟨hfits', -⟩
      exact absurd hfits' hfits

/-- **Times come back** if and only if the whole seconds contribute almost nothing to the fraction, and the offset is
right if and only if that makes up for what the server's timestamps are slow, within twenty microseconds. -/
theorem sntp_precise_iff (time : Int) (x : Exchange) (htime : InEra time) (hrequest : InEra x.request)
    (hreceive : InEra x.receive) (htransmit : InEra x.transmit) :
    (ConvertsBack time ↔ Precise 10 10 time) ∧
      (x.OffsetExact ↔
        Precise (20 + (lag x.receive + lag x.transmit)) (20 - (lag x.receive + lag x.transmit)) x.request) :=
  ⟨convertsBack_iff htime, offsetExact_iff x hrequest hreceive htransmit⟩

/-- One second and a quarter, which comes back seven microseconds late, and an exchange in the second half of a second:
the request is four microseconds early, and each timestamp of the server is four microseconds slow. -/
theorem sntp_precise_1970 : ConvertsBack 1250000 ∧
    ({ request := 131328500000, offset := 5, delay := 1, hold := 1 } : Exchange).OffsetExact := by
  have hera : ∀ time, 0 ≤ time → time ≤ 10 ^ 12 → InEra time := by
    intro time hlow hhigh
    rw [InEra, epochOffset]
    omega
  have hprecise := sntp_precise_iff 1250000 { request := 131328500000, offset := 5, delay := 1, hold := 1 }
    (hera _ (by decide) (by decide)) (hera _ (by decide) (by decide)) (hera _ (by decide) (by decide))
    (hera _ (by decide) (by decide))
  constructor
  · refine hprecise.1.mpr ?_
    rw [Precise, Fits, contribution]
    decide
  · refine hprecise.2.mpr ?_
    rw [Precise, Fits, contribution, lag, lag]
    decide

/-- Two seconds after 1970 the client is fifteen microseconds off. -/
theorem not_convertsBack_two_seconds : InEra 2000000 ∧ ¬ ConvertsBack 2000000 := by
  have hera : InEra 2000000 := by
    rw [InEra, epochOffset]
    decide
  refine ⟨hera, ?_⟩
  rw [convertsBack_iff hera, Precise, Fits, contribution]
  decide

end EmbeddedInfra.SntpClient
