import SysProg.Logic.Devices
import SysProg.Logic.StateOption
import SysProg.Proxy.Request

/-!
# The Rio package of `csapp.c`

A `rio_t` keeps the bytes of the last `read` that the callers have not taken
yet.  A call returns a result and the bytes that it has stored at `usrbuf`; it
fails where it would leave an array or never end.
-/

namespace SysProg.Rio

open Logic

def RIO_BUFSIZE : Nat := 8192

/-- A `rio_t` with the device behind its descriptor; `rioBuf` is what the last
successful `read` stored. -/
structure Reader where
  rioFd : Source UInt8
  rioCnt : Int
  rioBufptr : Nat
  rioBuf : List UInt8

/-- A routine that reads. -/
abbrev RM := Prog Reader

/-- The result of a call and the bytes that it has stored. -/
abbrev Result := Int × List UInt8

/-! ## Reading -/

/-- The loop of `rio_read`, cut off after `fuel` rounds, and the result with
which `rio_read` returns from it, if it does. -/
def fill : Nat → RM (Option Int)
  | 0 => fun _ => none
  | fuel + 1 => fun r =>
      if 0 < r.rioCnt then some (none, r)
      else
        match r.rioFd.read RIO_BUFSIZE with
        | (.interrupted, fd) => fill fuel { r with rioFd := fd, rioCnt := -1 }
        | (.failed, fd) => some (some (-1), { r with rioFd := fd, rioCnt := -1 })
        | (.got [], fd) => some (some 0, { r with rioFd := fd, rioCnt := 0 })
        | (.got (c :: piece), fd) => fill fuel ⟨fd, (c :: piece).length, 0, c :: piece⟩

/-- The copy from the internal buffer at the end of `rio_read`. -/
def copyOut (n : Nat) : RM Result := fun r =>
  let cnt := if r.rioCnt < n then r.rioCnt.toNat else n
  if r.rioBufptr + cnt ≤ r.rioBuf.length then
    some ((cnt, (r.rioBuf.drop r.rioBufptr).take cnt),
      { r with rioBufptr := r.rioBufptr + cnt, rioCnt := r.rioCnt - cnt })
  else none

/-- What `rio_read` does behind its loop, unless it has returned from it. -/
def behindFill (n : Nat) : Option Int → RM Result
  | some rc => pure (rc, [])
  | none => copyOut n

/-- `rio_read`; each round of its loop but the last two uses up an answer. -/
def rioRead (n : Nat) : RM Result := fun r =>
  (fill (r.rioFd.plan.length + 2) >>= behindFill n) r

/-- `rio_readinitb`. -/
def rioReadinitb (fd : Source UInt8) : Reader := ⟨fd, 0, 0, []⟩

/-- The loop of `rio_readnb`, cut off after `fuel` rounds. -/
def readnbFrom (n : Nat) : Nat → Nat → List UInt8 → RM Result
  | 0, _, _ => fun _ => none
  | fuel + 1, nleft, usrbuf => do
      if 0 < nleft then do
        let nread ← rioRead nleft
        if nread.1 < 0 then pure (-1, usrbuf)
        else if nread.1 = 0 then pure ((n - nleft : Nat), usrbuf)
        else readnbFrom n fuel (nleft - nread.1.toNat) (usrbuf ++ nread.2)
      else pure ((n - nleft : Nat), usrbuf)

/-- `rio_readnb`. -/
def rioReadnb (n : Nat) : RM Result := readnbFrom n (n + 1) n []

/-- The loop of `rio_readlineb`, with the counter `n`, in `rounds` more rounds. -/
def readlinebFrom : Nat → Nat → List UInt8 → RM Result
  | 0, n, usrbuf => pure ((n : Int) - 1, usrbuf ++ [0])
  | rounds + 1, n, usrbuf => do
      let rc ← rioRead 1
      if rc.1 = 1 then
        if rc.2 = [Proxy.newline] then pure ((n : Int), usrbuf ++ rc.2 ++ [0])
        else readlinebFrom rounds (n + 1) (usrbuf ++ rc.2)
      else if rc.1 = 0 then
        if n = 1 then pure (0, usrbuf) else pure ((n : Int) - 1, usrbuf ++ [0])
      else pure (-1, usrbuf)

/-- `rio_readlineb`; the counter, an `int`, runs from 1 below `maxlen`, which is less than
2 ^ 31. -/
def rioReadlineb (maxlen : Nat) : RM Result := readlinebFrom (maxlen - 1) 1 []

/-- The loop of `rio_readn`, which reads from the device itself. -/
def readnFrom (n : Nat) : Nat → Nat → List UInt8 → Prog (Source UInt8) Result
  | 0, _, _ => fun _ => none
  | fuel + 1, nleft, usrbuf => fun fd =>
      if 0 < nleft then
        match fd.read nleft with
        | (.interrupted, fd) => readnFrom n fuel nleft usrbuf fd
        | (.failed, fd) => some ((-1, usrbuf), fd)
        | (.got [], fd) => some (((n - nleft : Nat), usrbuf), fd)
        | (.got (c :: piece), fd) =>
            readnFrom n fuel (nleft - (c :: piece).length) (usrbuf ++ c :: piece) fd
      else some (((n - nleft : Nat), usrbuf), fd)

/-- `rio_readn`. -/
def rioReadn (n : Nat) : Prog (Source UInt8) Result := fun fd =>
  readnFrom n (n + fd.plan.length + 1) n [] fd

/-! ## Writing -/

section Write

variable {β : Type}

/-- The loop of `rio_writen`, with the bytes still to be written. -/
def writenFrom (n : Nat) : Nat → List β → Prog (Sink β) Int
  | 0, _ => fun _ => none
  | fuel + 1, usrbuf => fun fd =>
      if 0 < usrbuf.length then
        match fd.write usrbuf with
        | (.interrupted, fd) => writenFrom n fuel usrbuf fd
        | (.failed, fd) => some (-1, fd)
        | (.accepted nwritten, fd) => writenFrom n fuel (usrbuf.drop nwritten) fd
      else some ((n : Int), fd)

/-- `rio_writen`. -/
def rioWriten (usrbuf : List β) : Prog (Sink β) Int := fun fd =>
  writenFrom usrbuf.length (usrbuf.length + fd.plan.length + 1) usrbuf fd

end Write

end SysProg.Rio
