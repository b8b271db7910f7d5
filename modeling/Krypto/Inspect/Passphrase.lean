import Krypto.Inspect.Pgp

/-! What the report on an OpenPGP message says of its passphrase packets: the
count of an iterated and salted specifier is its eleventh byte, and the code
takes the last byte of the packet. -/

namespace Krypto.Inspect.Pgp
open Effect

/-- A version 4 packet: an iterated and salted specifier, then the encrypted session key. -/
def iterated (sym hash : UInt8) (salt : Bytes) (count : UInt8) (sessionKey : Bytes) : Packet :=
  let body := [4, sym, 3, hash] ++ salt ++ count :: sessionKey
  { tag := 3, body := some body, head := body }

/-- The byte count of a specifier, without a register to hold it. -/
def byteCount (count : UInt8) : ℕ := (16 + count.toNat % 16) * 2 ^ (count.toNat / 16 + 6)

def iteratedText (sym hash count : UInt8) : Str :=
  symmetricAlgorithm sym ++ ", ".toList ++ ("key from the passphrase with iterated and salted ".toList ++
    hashAlgorithm hash ++ ", ".toList ++ Str.decimal (byteCount count) ++ " bytes".toList)

def passphraseTexts (packets : List Packet) : List Str :=
  packets.filterMap fun p =>
    if p.tag = 3 then p.body.bind fun body => (passphraseText body).join else none

/-- The count fits in 32 bits, so the shift loses nothing. -/
theorem s2kCount_toNat (count : UInt8) :
    (s2kCount count).toNat = byteCount count ∧ byteCount count < 2 ^ 32 := by
  have h : ∀ n : Fin 256, (s2kCount (UInt8.ofNat n.val)).toNat = byteCount (UInt8.ofNat n.val) ∧
      byteCount (UInt8.ofNat n.val) < 2 ^ 32 := by decide +kernel
  have hcount := h ⟨count.toNat, count.toNat_lt⟩
  rwa [UInt8.ofNat_toNat] at hcount

theorem byteCount_injective : Function.Injective byteCount := by
  have hstep : ∀ n : Fin 255,
      byteCount (UInt8.ofNat n.val) < byteCount (UInt8.ofNat (n.val + 1)) := by decide +kernel
  have hmono {m n : ℕ} (hmn : m < n) (hn : n < 256) :
      byteCount (UInt8.ofNat m) < byteCount (UInt8.ofNat n) := by
    induction n with
    | zero => omega
    | succ n ih =>
      have hlast := hstep ⟨n, by omega⟩
      obtain hlt | heq := Nat.lt_or_eq_of_le (Nat.le_of_lt_succ hmn)
      · exact (ih hlt (by omega)).trans hlast
      · rwa [heq]
  intro a b hab
  have ha : UInt8.ofNat a.toNat = a := UInt8.ofNat_toNat
  have hb : UInt8.ofNat b.toNat = b := UInt8.ofNat_toNat
  apply UInt8.toNat_inj.mp
  obtain hlt | heq | hgt := Nat.lt_trichotomy a.toNat b.toNat
  · have hne := hmono hlt b.toNat_lt
    rw [ha, hb, hab] at hne
    exact absurd hne (Nat.lt_irrefl _)
  · exact heq
  · have hne := hmono hgt a.toNat_lt
    rw [ha, hb, hab] at hne
    exact absurd hne (Nat.lt_irrefl _)

/-- The pattern of `s2k` binds the last byte of whatever follows the hash. -/
theorem s2k_iterated (hash : UInt8) {rest : Bytes} {last : UInt8}
    (hlast : rest.getLast? = some last) (hlong : 9 ≤ rest.length) :
    s2k (3 :: hash :: rest) = "key from the passphrase with iterated and salted ".toList ++
      hashAlgorithm hash ++ ", ".toList ++ Str.decimal (byteCount last) ++ " bytes".toList := by
  have hspec : 11 ≤ (3 :: hash :: rest).length := by
    simpa using hlong
  unfold s2k
  simp only [hlast, if_pos hspec, (s2kCount_toNat last).1]

theorem passphraseText_four (sym : UInt8) (spec : Bytes) :
    passphraseText (4 :: sym :: spec) =
      some (some (symmetricAlgorithm sym ++ ", ".toList ++ s2k spec)) := by
  have hrange : range (4 :: sym :: spec) 2 (4 :: sym :: spec).length = some spec := by
    rw [range, if_pos ⟨by simp, le_rfl⟩]
    simp
  rw [passphraseText, List.head?_cons, Option.bind_eq_bind, Option.bind_some, if_pos rfl, hrange]
  rfl

variable {sym hash count : UInt8} {salt sessionKey : Bytes}

theorem passphraseTexts_iterated (hsalt : salt.length = 8) :
    passphraseTexts [iterated sym hash salt count sessionKey] =
      [iteratedText sym hash ((count :: sessionKey).getLast (List.cons_ne_nil _ _))] := by
  have hlast : (salt ++ count :: sessionKey).getLast? =
      some ((count :: sessionKey).getLast (List.cons_ne_nil _ _)) := by
    rw [List.getLast?_append_of_ne_nil _ (List.cons_ne_nil _ _),
      List.getLast?_eq_some_getLast (List.cons_ne_nil _ _)]
  have htext := s2k_iterated hash hlast (by simp [hsalt]; omega)
  have hbody := passphraseText_four sym (3 :: hash :: (salt ++ count :: sessionKey))
  rw [htext] at hbody
  simp [passphraseTexts, iterated, iteratedText, hbody]

theorem iteratedText_injective {count' : UInt8}
    (h : iteratedText sym hash count = iteratedText sym hash count') : count = count' := by
  have hdecimal : Str.decimal (byteCount count) = Str.decimal (byteCount count') := by
    simpa [iteratedText] using h
  exact byteCount_injective (Str.decimal_injective hdecimal)

/-- One turn of the loop of `message`. -/
theorem passphrases_add {m m' : Message} {p : Packet} (h : m.add p = some m') :
    m'.passphrases = m.passphrases ++ passphraseTexts [p] := by
  unfold Message.add at h
  cases hbody : p.body with
  | none =>
    rw [hbody] at h
    have hsame : m'.passphrases = m.passphrases := by
      dsimp only at h
      split at h <;> rw [← Option.some.inj h]
    simp [hsame, passphraseTexts, hbody]
  | some body =>
    simp only [hbody] at h
    split at h
    next hone =>
      obtain ⟨text, -, heq⟩ := Option.bind_eq_some_iff.mp h
      cases heq
      simp [passphraseTexts, hone]
    next hone =>
      split at h
      next hthree =>
        obtain ⟨text, htext, heq⟩ := Option.bind_eq_some_iff.mp h
        cases heq
        cases text <;> simp [passphraseTexts, hthree, hbody, htext]
      next hthree =>
        have hsame : m'.passphrases = m.passphrases := by
          split at h <;> rw [← Option.some.inj h]
        simp [hsame, passphraseTexts, hthree]

theorem passphraseTexts_append (front back : List Packet) :
    passphraseTexts (front ++ back) = passphraseTexts front ++ passphraseTexts back := by
  rw [passphraseTexts, List.filterMap_append, passphraseTexts, passphraseTexts]

theorem passphrases_foldlM {m m' : Message} {packets : List Packet}
    (h : packets.foldlM Message.add m = some m') :
    m'.passphrases = m.passphrases ++ passphraseTexts packets := by
  induction packets generalizing m with
  | nil =>
    cases h
    simp [passphraseTexts]
  | cons p packets ih =>
    obtain ⟨m₁, hadd, hrest⟩ := Option.bind_eq_some_iff.mp h
    rw [ih hrest, passphrases_add hadd, List.append_assoc, ← passphraseTexts_append,
      List.singleton_append]

theorem lookup_finding (m : Message) :
    m.finding.facts.lookup "passphrase".toList =
      if m.passphrases = [] then none else some (Str.join ", " m.passphrases) := by
  unfold Message.finding
  by_cases hrecipients : m.recipients = [] <;> by_cases hpassphrases : m.passphrases = [] <;>
    cases hdata : m.data <;>
    simp [hrecipients, hpassphrases, Finding.new, Finding.fact, List.lookup_cons]

theorem message_passphrase {packets : List Packet} {found : Finding}
    (h : message packets = some found) (hne : passphraseTexts packets ≠ []) :
    found.facts.lookup "passphrase".toList = some (Str.join ", " (passphraseTexts packets)) := by
  obtain ⟨m, hm, heq⟩ := Option.bind_eq_some_iff.mp h
  cases heq
  have hpassphrases : m.passphrases = passphraseTexts packets := by
    simpa using passphrases_foldlM hm
  rw [lookup_finding, hpassphrases, if_neg hne]

theorem signature_what {packets : List Packet} {found : Finding}
    (h : signature packets = some found) : found.what = "OpenPGP signature".toList := by
  obtain ⟨p, -, h⟩ := Option.bind_eq_some_iff.mp h
  obtain ⟨body, -, h⟩ := Option.bind_eq_some_iff.mp h
  obtain ⟨version, -, h⟩ := Option.bind_eq_some_iff.mp h
  split_ifs at h
  · obtain ⟨alg, -, h⟩ := Option.bind_eq_some_iff.mp h
    obtain ⟨hash, -, h⟩ := Option.bind_eq_some_iff.mp h
    simp [← Option.some.inj h]
  · obtain ⟨alg, -, h⟩ := Option.bind_eq_some_iff.mp h
    obtain ⟨hash, -, h⟩ := Option.bind_eq_some_iff.mp h
    simp [← Option.some.inj h]
  · simp [← Option.some.inj h]

theorem key_what {packets : List Packet} {found : Finding} (h : key packets = some found) :
    found.what = "OpenPGP private key".toList ∨ found.what = "OpenPGP public key".toList := by
  obtain ⟨first, -, h⟩ := Option.bind_eq_some_iff.mp h
  obtain ⟨body, -, h⟩ := Option.bind_eq_some_iff.mp h
  obtain ⟨primary, -, h⟩ := Option.bind_eq_some_iff.mp h
  by_cases hsecret : first.tag = 5
  · left
    simp only [hsecret, if_true] at h
    split_ifs at h <;> simp [← Option.some.inj h]
  · right
    simp only [hsecret, if_false] at h
    split_ifs at h <;> simp [← Option.some.inj h]

/-- A report that says it is about a message was made from all the packets. -/
theorem fromBinary_message {input : Bytes} {packets : List Packet} {found : Finding}
    (hpackets : Pgp.packets input = some packets) (hfound : fromBinary input = some found)
    (hwhat : found.what = "OpenPGP encrypted message".toList) : message packets = some found := by
  rw [fromBinary, hpackets, Option.bind_eq_bind, Option.bind_some] at hfound
  obtain ⟨first, -, hfirst⟩ := Option.bind_eq_some_iff.mp hfound
  split_ifs at hfirst with hversion hmessage hsignature hkey hcompressed
  · exact hfirst
  · rw [signature_what hfirst] at hwhat
    exact absurd hwhat (by decide +kernel)
  · obtain h | h := key_what hfirst <;> rw [h] at hwhat <;> exact absurd hwhat (by decide +kernel)
  · cases hfirst
    exact absurd hwhat (by decide +kernel)

/-- The report on a message gives a passphrase packet with an iterated and salted specifier the
count of its eleventh byte, the same for every salt, exactly when no encrypted session key follows
or that key happens to end in the same byte. No count leaves 32 bits. -/
theorem passphrase_count {input : Bytes} {before after : List Packet} {found : Finding}
    (hsalt : salt.length = 8)
    (hpackets : packets input =
      some (before ++ iterated sym hash salt count sessionKey :: after))
    (hfound : fromBinary input = some found)
    (hwhat : found.what = "OpenPGP encrypted message".toList) :
    (byteCount count < 2 ^ 32 ∧ (s2kCount count).toNat = byteCount count) ∧
      (found.facts.lookup "passphrase".toList = some (Str.join ", "
          (passphraseTexts before ++ iteratedText sym hash count :: passphraseTexts after)) ↔
        sessionKey = [] ∨ sessionKey.getLast? = some count) := by
  refine ⟨(s2kCount_toNat count).symm, ?_⟩
  have htexts : passphraseTexts (before ++ iterated sym hash salt count sessionKey :: after) =
      passphraseTexts before ++ iteratedText sym hash
        ((count :: sessionKey).getLast (List.cons_ne_nil _ _)) :: passphraseTexts after := by
    rw [passphraseTexts_append, ← List.singleton_append, passphraseTexts_append,
      passphraseTexts_iterated hsalt, List.singleton_append]
  have hreport := message_passphrase (fromBinary_message hpackets hfound hwhat) (by simp [htexts])
  rw [hreport, htexts, Option.some_inj]
  have hlast : (count :: sessionKey).getLast (List.cons_ne_nil _ _) = count ↔
      sessionKey = [] ∨ sessionKey.getLast? = some count := by
    by_cases hkey : sessionKey = []
    · simp [hkey]
    · rw [List.getLast_cons hkey, List.getLast?_eq_some_getLast hkey]
      simp [hkey]
  rw [← hlast]
  constructor
  · intro h
    exact iteratedText_injective (Str.join_append_cons_inj h)
  · intro h
    rw [h]

def sampleMessage (sessionKey : Bytes) : Bytes :=
  [0xc3, UInt8.ofNat (13 + sessionKey.length), 4, 9, 3, 8, 1, 2, 3, 4, 5, 6, 7, 8, 0x60] ++
    sessionKey ++ [0xd2, 2, 1, 0]

theorem passphrase_count_sample :
    ∃ found, fromBinary (sampleMessage []) = some found ∧
      found.facts.lookup "passphrase".toList = some (Str.join ", "
        (passphraseTexts [] ++ iteratedText 9 8 0x60 ::
          passphraseTexts [{ tag := 18, body := some [1, 0], head := [1, 0] }])) := by
  have hfound : fromBinary (sampleMessage []) =
      some ((fromBinary (sampleMessage [])).getD (.new "")) := by decide +kernel
  refine ⟨_, hfound, ?_⟩
  have hsalt : [1, 2, 3, 4, 5, 6, 7, (8 : UInt8)].length = 8 := rfl
  have hpackets : packets (sampleMessage []) =
      some ([] ++ iterated 9 8 [1, 2, 3, 4, 5, 6, 7, 8] 0x60 [] ::
        [{ tag := 18, body := some [1, 0], head := [1, 0] }]) := by decide +kernel
  have hcount := passphrase_count hsalt hpackets hfound (by decide +kernel)
  exact hcount.2.mpr (Or.inl rfl)

/-- The same message with a session key that ends in another byte: the count of that byte. -/
theorem passphrase_count_from_key :
    ∃ found, fromBinary (sampleMessage [9, 0xff]) = some found ∧
      found.facts.lookup "passphrase".toList ≠ some (iteratedText 9 8 0x60) := by
  have hfound : fromBinary (sampleMessage [9, 0xff]) =
      some ((fromBinary (sampleMessage [9, 0xff])).getD (.new "")) := by decide +kernel
  exact ⟨_, hfound, by decide +kernel⟩

end Krypto.Inspect.Pgp
