import Krypto.Cli
import Krypto.Effect.Recursion
import Krypto.Inspect.HexText
import Krypto.Inspect.Nested

/-! `inspect_at`, `pem` and `unwrapped` call each other, with the depth in a `u8`.
They come to an end, the depth does not overflow, and no more than two layers of
hex and of base64 without a PEM label are looked into. -/

namespace Krypto.Inspect
open Effect

/-- Where `inspect_at` is called from: `pem`, or one of the two calls in `unwrapped`. -/
inductive Layer where
  | pem
  | hex
  | base64
  deriving DecidableEq

structure Look where
  input : Bytes
  depth : UInt8

abbrev Looking := Prog (fun _ : Layer × Look => Finding) Empty

def deeper (depth : UInt8) : Looking UInt8 :=
  if depth = 255 then .done .panic else pure (depth + 1)

def look (layer : Layer) (bytes : Bytes) (depth : UInt8) : Looking Finding := do
  let next ← deeper depth
  Prog.perform (layer, ⟨bytes, next⟩)

def orElse {α : Type} (p q : Looking (Option α)) : Looking (Option α) := do
  match ← p with
  | some a => pure (some a)
  | none => q

def lookPemInner (label : Str) (depth : UInt8) (b : Bytes) : Looking (Option Finding) :=
  if label = "OPENSSH PRIVATE KEY".toList then pure (Ssh.privateKey b)
  else if label = "SSH SIGNATURE".toList then pure (Ssh.signature b)
  else if label = "RSA PUBLIC KEY".toList then pure (Pkix.pkcs1Public b)
  else do
    let found ← look .pem b depth
    pure ((some found).filter fun f => f.what ≠ NOT_RECOGNIZED)

def lookPem (lib : Lib) (text : Str) (depth : UInt8) : Looking (Option Finding) :=
  match Str.stripPrefix "-----BEGIN " text with
  | none => pure none
  | some rest =>
    let label := Str.firstPiece "-----" rest
    if Str.startsWith "PGP " label then
      pure (Pgp.fromArmor lib text)
    else do
      let shown := printable label.asBytes
      let inner ← (Ssh.decoded (pemBody text)).elim (pure none) (lookPemInner label depth)
      let found := inner.getD (Finding.new (pemLabelName label shown))
      pure (some (Formats.member (found.first "wrapped in" ("PEM (".toList ++ shown ++ [')']))
        "encrypted" (dekInfo text)))

def lookHex (text : Str) (depth : UInt8) : Looking (Option Finding) :=
  if 2 ≤ text.asBytes.length ∧ text.asBytes.all Str.isAsciiHexdigit then
    match Hex.decode (Str.toAsciiLowercase text) with
    | .ok bytes => do
      let found ← look .hex bytes depth
      pure (some (wrapped found "hex"))
    | _ => pure none
  else
    pure none

def lookBase64 (text : Str) (depth : UInt8) : Looking (Option Finding) :=
  if 8 ≤ text.asBytes.length then
    match Ssh.decoded text with
    | some bytes => do
      let found ← look .base64 bytes depth
      pure (if found.what ≠ NOT_RECOGNIZED then some (wrapped found "base64") else none)
    | none => pure none
  else
    pure none

def lookUnwrapped (text : Str) (depth : UInt8) : Looking (Option Finding) :=
  orElse (lookHex text depth) (lookBase64 text depth)

def lookString (lib : Lib) (text : Str) (depth : UInt8) : Looking (Option Finding) :=
  orElse (pure (phcArgon2id text)) <| orElse (lookPem lib text depth) <|
    orElse (pure (Ssh.rfc4716 lib text)) <| orElse (pure (Ssh.putty text)) <|
      orElse (pure (Ssh.publicLine lib text)) <| orElse (pure (Formats.fromText lib text)) <|
        if depth < 2 then lookUnwrapped text depth else pure none

/-- The body of `inspect_at`, with its nested calls as calls. -/
def lookAt (lib : Lib) : Body Layer Look Empty Finding := fun ⟨input, depth⟩ => do
  let told ← orElse (pure (recognizers.findSome? fun f => f input)) <|
    match Str.fromUtf8 input with
    | some s => lookString lib (Str.trim s) depth
    | none => pure none
  pure ((told.or (byLength input)).getD (unknown lib input))

/-! ## What is told, when the nested calls return -/

section Told
variable {lib : Lib} {inner : Bytes → ℕ → Finding} {α β : Type}

def Tells (inner : Bytes → ℕ → Finding) (p : Looking α) (a : α) : Prop :=
  p.answer (fun c => some (.ok (inner c.2.input c.2.depth.toNat))) = some (.ok a)

theorem tells_pure (a : α) : Tells inner (pure a) a := rfl

theorem Tells.bind {p : Looking α} {k : α → Looking β} {a : α} {b : β} (h : Tells inner p a)
    (hk : Tells inner (k a) b) : Tells inner (p >>= k) b :=
  (Prog.answer_bind h).trans hk

theorem toNat_deeper {depth : UInt8} (h : depth ≠ 255) : (depth + 1).toNat = depth.toNat + 1 := by
  have hlt := depth.toNat_lt
  have hne : depth.toNat ≠ 255 := fun heq => h (UInt8.toNat_inj.mp heq)
  rw [UInt8.toNat_add]
  exact Nat.mod_eq_of_lt (by simp; omega)

theorem tells_look (layer : Layer) (bytes : Bytes) {depth : UInt8} (h : depth ≠ 255) :
    Tells inner (look layer bytes depth) (inner bytes (depth.toNat + 1)) := by
  rw [← toNat_deeper h, look, deeper, if_neg h]
  rfl

theorem Tells.orElse {p q : Looking (Option α)} {a b : Option α} (hp : Tells inner p a)
    (hq : Tells inner q b) : Tells inner (orElse p q) (a.or b) := by
  apply hp.bind
  cases a with
  | some a => exact tells_pure _
  | none => exact hq

variable {depth : UInt8} (h : depth ≠ 255) (text : Str)
include h

theorem tells_pem : Tells inner (lookPem lib text depth) (pem lib inner text depth.toNat) := by
  unfold lookPem pem
  cases Str.stripPrefix "-----BEGIN " text with
  | none => exact tells_pure _
  | some rest =>
    dsimp only
    rw [Option.bind_eq_bind, Option.bind_some]
    split
    · exact tells_pure _
    · refine Tells.bind (a := (Ssh.decoded (pemBody text)).bind
        (pemInner inner (Str.firstPiece "-----" rest) depth.toNat)) ?_ (tells_pure _)
      cases Ssh.decoded (pemBody text) with
      | none => exact tells_pure _
      | some b =>
        unfold lookPemInner
        rw [Option.bind_some, pemInner]
        split_ifs
        · exact tells_pure _
        · exact tells_pure _
        · exact tells_pure _
        · exact (tells_look .pem b h).bind (tells_pure _)

theorem tells_unwrapped :
    Tells inner (lookUnwrapped text depth) (unwrapped inner text depth.toNat) := by
  apply Tells.orElse
  · unfold lookHex
    split
    · cases Hex.decode (Str.toAsciiLowercase text) with
      | ok bytes => exact (tells_look .hex bytes h).bind (tells_pure _)
      | err e => exact tells_pure _
      | panic => exact tells_pure _
    · exact tells_pure _
  · unfold lookBase64
    split
    · cases Ssh.decoded text with
      | some bytes => exact (tells_look .base64 bytes h).bind (tells_pure _)
      | none => exact tells_pure _
    · exact tells_pure _

theorem tells_string :
    Tells inner (lookString lib text depth) (fromString lib inner text depth.toNat) := by
  apply (tells_pure _).orElse
  apply (tells_pem h text).orElse
  apply (tells_pure _).orElse
  apply (tells_pure _).orElse
  apply (tells_pure _).orElse
  apply (tells_pure _).orElse
  have hshallow : depth < 2 ↔ depth.toNat < 2 := UInt8.lt_iff_toNat_lt
  by_cases hdepth : depth < 2
  · rw [if_pos hdepth, if_pos (hshallow.mp hdepth)]
    exact tells_unwrapped h text
  · rw [if_neg hdepth, if_neg (mt hshallow.mpr hdepth)]
    exact tells_pure _

omit text
/-- Short of an overflow, the body tells what `inspectOne` does. -/
theorem tells_at (input : Bytes) :
    Tells inner (lookAt lib ⟨input, depth⟩) (inspectOne lib inner input depth.toNat) := by
  refine Tells.bind (Tells.orElse (tells_pure _) ?_) (tells_pure _)
  cases Str.fromUtf8 input with
  | none => exact tells_pure _
  | some s => exact tells_string h (Str.trim s)

end Told

/-! ## The nested calls -/

/-- A call that the code at `depth` makes on what it took from `text`. -/
structure Takes (text : Str) (depth : UInt8) (c : Layer × Look) : Prop where
  counted : depth ≠ 255 ∧ c.2.depth = depth + 1
  shorter : c.2.input.length < text.asBytes.length
  shrinks : 4 * c.2.input.length ≤ 3 * text.asBytes.length
  shallow : c.1 ≠ .pem → depth < 2

section Calls
variable {N : Layer × Look → Prop} {α β : Type}

abbrev Looks (N : Layer × Look → Prop) (p : Looking α) : Prop :=
  Quiet N (fun _ _ => True) p fun _ => True

theorem looks_pure (a : α) : Looks N (pure a) := trivial

theorem Looks.bind {p : Looking α} {k : α → Looking β} (h : Looks N p) (hk : ∀ a, Looks N (k a)) :
    Looks N (p >>= k) :=
  Quiet.bind h (fun a _ => hk a) (fun _ _ => trivial) fun _ => trivial

theorem looks_look {layer : Layer} {bytes : Bytes} {depth : UInt8}
    (h : depth ≠ 255 → N (layer, ⟨bytes, depth + 1⟩)) : Looks N (look layer bytes depth) := by
  unfold look deeper
  split
  next => trivial
  next hdepth => exact ⟨h hdepth, fun _ _ => trivial⟩

theorem Looks.orElse {p q : Looking (Option α)} (hp : Looks N p) (hq : Looks N q) :
    Looks N (orElse p q) := by
  apply hp.bind
  intro a
  cases a with
  | some a => exact looks_pure _
  | none => exact hq

variable (text : Str) (depth : UInt8)

theorem looks_pem (lib : Lib) : Looks (Takes text depth) (lookPem lib text depth) := by
  unfold lookPem
  split
  · exact looks_pure _
  next rest hstart =>
    dsimp only
    split
    · exact looks_pure _
    · refine Looks.bind ?_ fun _ => looks_pure _
      cases hdecoded : Ssh.decoded (pemBody text) with
      | none => exact looks_pure _
      | some b =>
        have hpos : 0 < text.asBytes.length := by
          rw [Str.eq_append_of_stripPrefix hstart, Str.asBytes, List.flatMap_append,
            List.length_append]
          exact Nat.add_pos_left (by decide) _
        have hb := length_decoded hdecoded
        have hbody := Str.length_asBytes_le (pemBody_sublist text)
        rw [Option.elim_some]
        unfold lookPemInner
        split_ifs
        · exact looks_pure _
        · exact looks_pure _
        · exact looks_pure _
        · refine (looks_look fun hdepth => ?_).bind fun _ => looks_pure _
          exact ⟨⟨hdepth, rfl⟩, by dsimp only; omega, by dsimp only; omega, fun hne => absurd rfl hne⟩

theorem looks_unwrapped (h : depth < 2) : Looks (Takes text depth) (lookUnwrapped text depth) := by
  apply Looks.orElse
  · unfold lookHex
    split
    next hguard =>
      cases hbytes : Hex.decode (Str.toAsciiLowercase text) with
      | ok bytes =>
        refine (looks_look fun hdepth => ?_).bind fun _ => looks_pure _
        have hlen := Hex.length_decode hbytes
        rw [Str.length_asBytes_lowercase] at hlen
        exact ⟨⟨hdepth, rfl⟩, by dsimp only; omega, by dsimp only; omega, fun _ => h⟩
      | err e => exact looks_pure _
      | panic => exact looks_pure _
    next => exact looks_pure _
  · unfold lookBase64
    split
    next hguard =>
      cases hbytes : Ssh.decoded text with
      | some bytes =>
        refine (looks_look fun hdepth => ?_).bind fun _ => looks_pure _
        have hlen := length_decoded hbytes
        exact ⟨⟨hdepth, rfl⟩, by dsimp only; omega, hlen, fun _ => h⟩
      | none => exact looks_pure _
    next => exact looks_pure _

theorem looks_string (lib : Lib) : Looks (Takes text depth) (lookString lib text depth) := by
  apply (looks_pure _).orElse
  apply (looks_pem text depth lib).orElse
  apply (looks_pure _).orElse
  apply (looks_pure _).orElse
  apply (looks_pure _).orElse
  apply (looks_pure _).orElse
  split
  next hdepth => exact looks_unwrapped text depth hdepth
  next => exact looks_pure _

end Calls

/-- Every call of `inspect_at` is on what stands in the trimmed text of its input. -/
theorem takes_of_asks {lib : Lib} {input : Bytes} {depth : UInt8} {c : Layer × Look}
    (h : (lookAt lib ⟨input, depth⟩).Asks c) :
    ∃ s, Str.fromUtf8 input = some s ∧ Takes (Str.trim s) depth c := by
  have hlooks : Looks (fun c => ∃ s, Str.fromUtf8 input = some s ∧ Takes (Str.trim s) depth c)
      (lookAt lib ⟨input, depth⟩) := by
    refine Looks.bind (Looks.orElse (looks_pure _) ?_) fun _ => looks_pure _
    cases hutf : Str.fromUtf8 input with
    | none => exact looks_pure _
    | some s => exact (looks_string (Str.trim s) depth lib).calls fun c hc => ⟨s, rfl, hc⟩
  exact hlooks.asks h

/-! ## Chains of calls -/

/-- A call whose chain is over before its depth is 255: each layer is a quarter shorter at least. -/
structure Fits (seen : Look) : Prop where
  counted : seen.depth.toNat ≤ 254
  short : seen.input.length * 3 ^ (254 - seen.depth.toNat) < 4 ^ (254 - seen.depth.toNat)

section Chains
variable {lib : Lib} {outer : Look}

theorem shorter_of_asks {c : Layer × Look} (h : (lookAt lib outer).Asks c) :
    c.2.input.length < outer.input.length ∧ 4 * c.2.input.length ≤ 3 * outer.input.length := by
  obtain ⟨s, hutf, htakes⟩ := takes_of_asks h
  have hlen := Str.length_asBytes_le (Str.trim_sublist s)
  rw [Str.asBytes_of_fromUtf8 hutf] at hlen
  have hshorter := htakes.shorter
  have hshrinks := htakes.shrinks
  omega

theorem depth_of_asks {c : Layer × Look} (h : (lookAt lib outer).Asks c) :
    c.2.depth.toNat = outer.depth.toNat + 1 := by
  obtain ⟨s, -, htakes⟩ := takes_of_asks h
  rw [htakes.counted.2, toNat_deeper htakes.counted.1]

theorem fits_of_lt {input : Bytes} (h : input.length < 2 ^ 64) : Fits ⟨input, 0⟩ := by
  refine ⟨Nat.zero_le _, ?_⟩
  calc input.length * 3 ^ 254 < 2 ^ 64 * 3 ^ 254 := Nat.mul_lt_mul_of_pos_right h (by positivity)
    _ ≤ 4 ^ 254 := by norm_num

theorem Fits.asks {c : Layer × Look} (h : Fits outer) (hasks : (lookAt lib outer).Asks c) :
    Fits c.2 := by
  obtain ⟨hshorter, hshrinks⟩ := shorter_of_asks hasks
  obtain ⟨hcounted, hshort⟩ := h
  have hne : outer.depth.toNat ≠ 254 := by
    intro hdepth
    rw [hdepth] at hshort
    omega
  obtain ⟨n, hn⟩ : ∃ n, 254 - outer.depth.toNat = n + 1 := ⟨253 - outer.depth.toNat, by omega⟩
  have hnext : 254 - c.2.depth.toNat = n := by
    rw [depth_of_asks hasks]
    omega
  refine ⟨by rw [depth_of_asks hasks]; omega, ?_⟩
  rw [hn] at hshort
  rw [hnext]
  have hfour : 4 * (c.2.input.length * 3 ^ n) < 4 * 4 ^ n := by
    calc 4 * (c.2.input.length * 3 ^ n) = 4 * c.2.input.length * 3 ^ n := (Nat.mul_assoc ..).symm
      _ ≤ 3 * outer.input.length * 3 ^ n := Nat.mul_le_mul_right _ hshrinks
      _ = outer.input.length * 3 ^ (n + 1) := by ring
      _ < 4 ^ (n + 1) := hshort
      _ = 4 * 4 ^ n := Nat.pow_succ'
  exact Nat.lt_of_mul_lt_mul_left hfour

theorem depth_of_chain {deepest : Look} {layers : List Layer}
    (h : (lookAt lib).Chain outer layers deepest) :
    deepest.depth.toNat = outer.depth.toNat + layers.length := by
  induction h with
  | nil seen => rfl
  | cons hasks _ ih =>
    rw [ih, depth_of_asks hasks, List.length_cons]
    omega

/-- Hex and bare base64 are taken at the depths 0 and 1 only. -/
theorem shallow_of_chain {deepest : Look} {layers : List Layer}
    (h : (lookAt lib).Chain outer layers deepest) :
    layers.countP (· ≠ .pem) ≤ 2 - outer.depth.toNat := by
  induction h with
  | nil seen => exact Nat.zero_le _
  | @cons a b _ l ls hasks _ ih =>
    rw [depth_of_asks hasks] at ih
    by_cases hpem : l = .pem
    · rw [List.countP_cons_of_neg (by simpa using hpem)]
      omega
    · obtain ⟨s, -, htakes⟩ := takes_of_asks hasks
      have hdepth : a.depth.toNat < 2 := UInt8.lt_iff_toNat_lt.mp (htakes.shallow hpem)
      rw [List.countP_cons_of_pos (by simpa using hpem)]
      omega

theorem unroll_eq {fuel : ℕ} (h : Fits outer) (hfuel : outer.input.length < fuel) :
    (lookAt lib).unroll fuel outer =
      some (.ok (inspectAt lib outer.input outer.depth.toNat)) := by
  induction fuel generalizing outer with
  | zero => exact absurd hfuel (Nat.not_lt_zero _)
  | succ fuel ih =>
    have hdepth : outer.depth ≠ 255 := by
      rintro heq
      have hcounted := h.counted
      rw [heq] at hcounted
      exact absurd hcounted (by decide)
    have hcalls : ∀ c, (lookAt lib outer).Asks c → (lookAt lib).unroll fuel c.2 =
        some (.ok (inspectAt lib c.2.input c.2.depth.toNat)) := by
      intro c hc
      have hshorter := (shorter_of_asks hc).1
      exact ih (h.asks hc) (by omega)
    rw [Body.unroll, Prog.answer_congr hcalls, inspectAt_eq]
    exact tells_at hdepth outer.input

end Chains

/-- However deep its input is wrapped, `inspect` returns: what a nested call looks at is shorter
than the text it was taken from. On what stdin may hold the depth stays below 255, and at no input
are more than two layers hex or base64 without a label. -/
theorem inspect_unwraps (lib : Lib) (input : Bytes) :
    (∀ depth fuel, input.length < fuel → ∃ r, (lookAt lib).unroll fuel ⟨input, depth⟩ = some r) ∧
    (∀ depth layer next, (lookAt lib ⟨input, depth⟩).Asks (layer, next) → ∃ s,
      Str.fromUtf8 input = some s ∧ next.input.length < (Str.trim s).asBytes.length) ∧
    (input.length ≤ Cli.MAX_STDIN →
      (∀ fuel, input.length < fuel →
        (lookAt lib).unroll fuel ⟨input, 0⟩ = some (.ok (inspect lib input))) ∧
      ∀ layers next, (lookAt lib).Chain ⟨input, 0⟩ layers next →
        next.depth.toNat = layers.length ∧ layers.length < 255) ∧
    ∀ layers next, (lookAt lib).Chain ⟨input, 0⟩ layers next → layers.countP (· ≠ .pem) ≤ 2 := by
  refine ⟨fun depth fuel hfuel => ?_, fun depth layer next hasks => ?_, fun hlen => ⟨?_, ?_⟩, ?_⟩
  · apply Body.unroll_returns (fun seen => seen.input.length) _ hfuel
    intro a c hasks
    exact (shorter_of_asks hasks).1
  · obtain ⟨s, hutf, htakes⟩ := takes_of_asks hasks
    exact ⟨s, hutf, htakes.shorter⟩
  · intro fuel hfuel
    exact unroll_eq (fits_of_lt (hlen.trans_lt (by decide))) hfuel
  · intro layers next hchain
    have hfits : Fits next :=
      hchain.keeps (fun _ _ h hasks => h.asks hasks) (fits_of_lt (hlen.trans_lt (by decide)))
    have hdepth : next.depth.toNat = 0 + layers.length := depth_of_chain hchain
    have hcounted := hfits.counted
    omega
  · intro layers next hchain
    exact shallow_of_chain hchain

theorem inspect_unwraps_hex : (ascii "4641464e").length ≤ Cli.MAX_STDIN ∧
    (lookAt asciiLib).unroll 9 ⟨ascii "4641464e", 0⟩ =
      some (.ok (inspect asciiLib (ascii "4641464e"))) := by
  have hlen : (ascii "4641464e").length ≤ Cli.MAX_STDIN := by decide
  exact ⟨hlen, ((inspect_unwraps asciiLib (ascii "4641464e")).2.2.1 hlen).1 9 (by decide)⟩

end Krypto.Inspect
