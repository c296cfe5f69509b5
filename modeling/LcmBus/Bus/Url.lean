import Mathlib.Data.Nat.Notation

/-!
# Bus addresses

What `url.rs` admits of the parameters of a `udpm://` URL that the layout of datagrams depends on.
-/

namespace LcmBus.BusUrl

/-- A datagram holds the long header, a channel name, its NUL, and one byte of payload.  Below this no
message can be sent at all. -/
def minShortMax : ℕ := 22

/-- The payload of one IPv4 datagram. -/
def maxUdpPayload : ℕ := 65507

/-- `short_max` counts the bytes after the short header, so the largest one a datagram holds is that
much less than the datagram itself. -/
def maxShortMax : ℕ := maxUdpPayload - 8

/-- The test that `BusUrl::parse` makes of the number a URL has as its `short_max`. -/
def AdmitsShortMax (bytes : ℕ) : Prop := minShortMax ≤ bytes ∧ bytes ≤ maxShortMax

instance (bytes : ℕ) : Decidable (AdmitsShortMax bytes) := inferInstanceAs (Decidable (_ ∧ _))

end LcmBus.BusUrl
