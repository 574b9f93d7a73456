import Mathlib.Data.Nat.Notation

/-!
# The events of `epoll_wait`

What `epoll.cc` and `epoll_one_shot.cc` read of the array that `epoll_wait` fills: whether the
descriptor is `listen_fd`, and for another descriptor whether the flag `EPOLLIN` is set.
-/

namespace LinuxServer

namespace Epoll

/-- `MAX_EVENT_NUMBER` -/
def maxEventNumber : ℕ := 1024

/-- An element of `events`. -/
inductive Event where
  /-- The descriptor is `listen_fd`. -/
  | listen
  /-- Another descriptor, with the `EPOLLIN` flag set or not. -/
  | client (fd : ℕ) (epollIn : Bool)
  deriving DecidableEq, Repr

/-- The descriptor, when it is not `listen_fd`. -/
def Event.client? : Event → Option ℕ
  | .listen => none
  | .client fd _ => some fd

end Epoll

end LinuxServer
