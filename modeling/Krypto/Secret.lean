import Krypto.Kdf

/-! `secret.rs`, as values: making the buffers that secrets are kept in. -/

namespace Krypto
open Effect

def MAX_RANDOM_BYTES : Nat := 1048576

def checkRandomLen (len limit : Nat) : Outcome Error Unit :=
  if limit < len then
    .err (.format s!"{len} random bytes asked for; the cap for this call is {limit}")
  else
    .ok ()

namespace SecretBuf
variable {ν : Type}

def fromVec (v : Bytes) : Action ν SecretBuf := do
  lockedPages v.length
  pure v

/-- `fill` is what the closure leaves in the buffer, where it ends well. -/
def fillWith (len : Nat) (fill : Outcome Error (Fixed len)) : Action ν SecretBuf := do
  lockedPages len
  let b ← lift fill
  pure b.toList

def randomWithLimit (len limit : Nat) : Action ν SecretBuf := do
  lift (checkRandomLen len limit)
  lockedPages len
  let b ← fill len "getrandom failed: "
  pure b.toList

def random (len : Nat) : Action ν SecretBuf := randomWithLimit len MAX_RANDOM_BYTES

end SecretBuf
end Krypto
