import Krypto.Secret

/-! `password.rs`: a key from a password, by Argon2id with one of three presets. -/

namespace Krypto
open Effect

abbrev SecretString := Bytes

def SecretString.fromString {ν : Type} (s : String) : Action ν SecretString :=
  SecretBuf.fromVec (Str.asBytes s.toList)

namespace Password

inductive Preset where
  | interactive
  | balanced
  | high

structure Params where
  mKib : Nat
  t : Nat
  p : Nat

def Preset.params : Preset → Params
  | interactive => ⟨65536, 3, 2⟩
  | balanced => ⟨131072, 3, 3⟩
  | high => ⟨262144, 4, 4⟩

/-- Every preset keeps the floor: 64 MiB, two passes and one lane. -/
theorem Preset.params_floor (preset : Preset) :
    64 * 1024 ≤ preset.params.mKib ∧ 2 ≤ preset.params.t ∧ 1 ≤ preset.params.p := by
  cases preset
  all_goals exact ⟨by decide, by decide, by decide⟩

/-- `hash_password_into` of Argon2id, version 0x13, for 32 bytes. -/
abbrev Argon2 := (params : Params) → (password salt : Bytes) → Except String (Fixed 32)

def deriveKey {ν : Type} (argon2 : Argon2) (password : SecretString) (salt : Bytes) (preset : Preset) :
    Action ν SecretBuf :=
  if salt.length < 16 then
    Prog.throw (.format s!"argon2 salt must be at least 16 bytes, got {salt.length}")
  else
    SecretBuf.fillWith 32 <|
      match argon2 preset.params password salt with
      | .ok key => .ok key
      | .error e => .err (.format ("argon2 derivation failed: " ++ e))

end Password
end Krypto
