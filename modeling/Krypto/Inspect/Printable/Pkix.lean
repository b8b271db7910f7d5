import Krypto.Inspect.Printable.Texts

/-! What the DER recognizers tell is printable: names from a table, dotted numbers and digits. -/

namespace Krypto.Inspect
open Effect Der

theorem shown_oidText (body : Bytes) : Shown (oidText body) := by
  apply shown_join (shown_literal rfl)
  intro s hs
  obtain ⟨n, -, rfl⟩ := List.mem_map.mp hs
  exact shown_decimal _

theorem shown_nameOf (t : Tlv) : Shown (nameOf t) := by
  have hnames : ∀ e ∈ oidNames, Shown e.2.toList := by decide +kernel
  apply shown_getD _ (shown_oidText _)
  intro s hs
  obtain ⟨e, he, rfl⟩ := Option.map_eq_some_iff.mp hs
  exact hnames e (List.mem_of_find?_eq_some he)

theorem shown_keyAlgorithm (alg : Tlv) (key : Option Bytes) : ShownIfAny (keyAlgorithm alg key) := by
  unfold keyAlgorithm
  apply shownIfAny_bind
  rintro ⟨oid, params⟩ -
  dsimp only
  split_ifs
  · cases params.filter fun p => p.tag = OID with
    | some curve => exact shownIfAny_some ((shown_literal rfl).append (shown_nameOf _))
    | none => exact shownIfAny_some (shown_literal rfl)
  · cases key.bind rsaBits with
    | some bits =>
      exact shownIfAny_some (((shown_literal rfl).append (shown_decimal _)).append (shown_literal rfl))
    | none => exact shownIfAny_some (shown_literal rfl)
  · exact shownIfAny_some (shown_nameOf _)

namespace Pkix

theorem shown_digitText {d : Bytes} (h : d.all Str.isAsciiDigit = true) : Shown (digitText d) := by
  intro c hc
  obtain ⟨b, hb, rfl⟩ := List.mem_map.mp hc
  have hdigit := List.all_eq_true.mp h b hb
  simp only [Str.isAsciiDigit, Bool.and_eq_true, decide_eq_true_eq] at hdigit
  have h48 : 48 ≤ b.toNat := UInt8.le_iff_toNat_le.mp hdigit.1
  have h57 : b.toNat ≤ 57 := UInt8.le_iff_toNat_le.mp hdigit.2
  apply printable_of_range
  rw [Str.toNat_ofNat_of_lt (by omega)]
  omega

theorem digits_all {s d : Bytes} {i j : ℕ} (h : digits s i j = some d) :
    d.all Str.isAsciiDigit = true := (Option.filter_eq_some_iff.mp h).2

theorem shown_dateText {year : Str} {month day : Bytes} (hyear : Shown year)
    (hmonth : month.all Str.isAsciiDigit = true) (hday : day.all Str.isAsciiDigit = true) :
    Shown (dateText year month day) :=
  (((hyear.append (shown_char (by decide))).append (shown_digitText hmonth)).append
    (shown_char (by decide))).append (shown_digitText hday)

theorem shown_time (t : Tlv) : ShownIfAny (time t) := by
  unfold time
  apply shownIfAny_bind
  intro s _
  split_ifs
  · refine shownIfAny_bind fun yy _ => ?_
    refine shownIfAny_bind fun month hmonth => ?_
    refine shownIfAny_bind fun day hday => ?_
    exact shownIfAny_some (shown_dateText (shown_decimal _) (digits_all hmonth) (digits_all hday))
  · refine shownIfAny_bind fun year hyear => ?_
    refine shownIfAny_bind fun month hmonth => ?_
    refine shownIfAny_bind fun day hday => ?_
    exact shownIfAny_some (shown_dateText (shown_digitText (digits_all hyear)) (digits_all hmonth)
      (digits_all hday))
  · exact shownIfAny_none

theorem shown_signatureName (alg : Tlv) : ShownIfAny (signatureName alg) := by
  refine shownIfAny_bind fun oid _ => ?_
  exact shownIfAny_some (shown_nameOf _)

theorem shown_spkiKey (spki : Tlv) : ShownIfAny (spkiKey spki) := by
  refine shownIfAny_bind fun parts _ => ?_
  split
  · exact shown_keyAlgorithm _ _
  · exact shownIfAny_none

theorem certificate_told (parts : List Tlv) : Told (certificate parts) := by
  unfold certificate
  split
  · refine told_ite (fun _ => told_none) fun _ => ?_
    refine told_bind fun tbs _ => ?_
    refine told_bind fun first _ => ?_
    dsimp only
    split
    · refine told_ite (fun _ => told_none) fun _ => ?_
      refine told_bind fun times _ => ?_
      split
      · refine told_bind fun signature hsignature => ?_
        have hfound (spki : Tlv) : Printed (((Finding.new "X.509 certificate").fact "signature"
            signature).fact "public key" ((spkiKey spki).getD "unknown")) :=
          ((Printed.new (shown_literal rfl)).fact (shown_literal rfl)
            (shown_signatureName _ _ hsignature)).fact (shown_literal rfl)
              (shown_getD (shown_spkiKey _) (shown_literal rfl))
        split
        next hstart hstop =>
          exact told_some ((hfound _).fact (shown_literal rfl)
            (((shown_time _ _ hstart).append (shown_literal rfl)).append (shown_time _ _ hstop)))
        · exact told_some (hfound _)
      · exact told_none
    · exact told_none
  · exact told_none

theorem request_told (parts : List Tlv) : Told (request parts) := by
  unfold request
  split
  · refine told_ite (fun _ => told_none) fun _ => ?_
    refine told_bind fun info _ => ?_
    split
    · refine told_ite (fun _ => told_none) fun _ => ?_
      refine told_bind fun signature hsignature => ?_
      refine told_bind fun key hkey => ?_
      exact told_some (((Printed.new (shown_literal rfl)).fact (shown_literal rfl)
        (shown_signatureName _ _ hsignature)).fact (shown_literal rfl) (shown_spkiKey _ _ hkey))
    · exact told_none
  · exact told_none

theorem revocationList_told (parts : List Tlv) : Told (revocationList parts) := by
  unfold revocationList
  split
  · refine told_ite (fun _ => told_none) fun _ => ?_
    refine told_bind fun tbs _ => ?_
    refine told_bind fun first _ => ?_
    dsimp only
    split
    · refine told_ite (fun _ => told_none) fun _ => ?_
      refine told_bind fun signature hsignature => ?_
      exact told_some ((Printed.new (shown_literal rfl)).fact (shown_literal rfl)
        (shown_signatureName _ _ hsignature))
    · exact told_none
  · exact told_none

/-- A private key, of which only the algorithm is told. -/
theorem printed_key {what : String} {algorithm : Str} (hwhat : Shown what.toList)
    (halgorithm : Shown algorithm) :
    Printed (((Finding.new what).fact "algorithm" algorithm).fact "key" "not shown") :=
  ((Printed.new hwhat).fact (shown_literal rfl) halgorithm).fact (shown_literal rfl)
    (shown_literal rfl)

theorem pkcs8_told (parts : List Tlv) : Told (pkcs8 parts) := by
  unfold pkcs8
  split
  · refine told_ite (fun _ => told_none) fun _ => ?_
    refine told_bind fun what hwhat => ?_
    exact told_some (printed_key (shown_literal rfl) (shown_keyAlgorithm _ _ _ hwhat))
  · exact told_none

theorem shown_pbkdf2Text (p : Tlv) : ShownIfAny (pbkdf2Text p) := by
  refine shownIfAny_bind fun fields _ => ?_
  have hprf : Shown ((((fields.find? fun t => t.tag = SEQUENCE).bind algorithm).map
      fun e => nameOf e.1).getD "HMAC-SHA1".toList) := by
    apply shown_getD _ (shown_literal rfl)
    intro s hs
    obtain ⟨o, -, rfl⟩ := Option.map_eq_some_iff.mp hs
    exact shown_nameOf _
  dsimp only
  split
  · exact shownIfAny_some (((((shown_literal rfl).append hprf).append (shown_literal rfl)).append
      (shown_decimal _)).append (shown_literal rfl))
  · exact shownIfAny_some ((shown_literal rfl).append hprf)

theorem shown_pbes2 {params : Tlv} {kdf cipher : Str} (h : pbes2 params = some (kdf, cipher)) :
    Shown kdf ∧ Shown cipher := by
  obtain ⟨parts, -, h⟩ := Option.bind_eq_some_iff.mp h
  split at h
  · obtain ⟨kdfAlg, -, h⟩ := Option.bind_eq_some_iff.mp h
    obtain ⟨⟨cipherOid, _⟩, -, h⟩ := Option.bind_eq_some_iff.mp h
    dsimp only at h
    split at h
    · obtain ⟨text, htext, h⟩ := Option.bind_eq_some_iff.mp h
      cases h
      exact ⟨shown_pbkdf2Text _ _ htext, shown_nameOf _⟩
    · cases h
      exact ⟨shown_nameOf _, shown_nameOf _⟩
  · cases h

theorem encryptedPkcs8_told (parts : List Tlv) : Told (encryptedPkcs8 parts) := by
  unfold encryptedPkcs8
  split
  · refine told_ite (fun _ => told_none) fun _ => ?_
    refine told_bind fun alg _ => ?_
    refine told_ite (fun _ => ?_) fun _ => ?_
    · refine told_bind fun params _ => ?_
      refine told_bind fun scheme hscheme => ?_
      obtain ⟨hkdf, hcipher⟩ := shown_pbes2 hscheme
      exact told_some (((Printed.new (shown_literal rfl)).fact (shown_literal rfl) hkdf).fact
        (shown_literal rfl) hcipher)
    · exact told_some ((Printed.new (shown_literal rfl)).fact (shown_literal rfl) (shown_nameOf _))
  · exact told_none

theorem spki_told (parts : List Tlv) : Told (spki parts) := by
  unfold spki
  split
  · refine told_ite (fun _ => told_none) fun _ => ?_
    refine told_bind fun what hwhat => ?_
    exact told_some ((Printed.new (shown_literal rfl)).fact (shown_literal rfl)
      (shown_keyAlgorithm _ _ _ hwhat))
  · exact told_none

theorem sec1_told (parts : List Tlv) : Told (sec1 parts) := by
  unfold sec1
  split
  · refine told_ite (fun _ => told_none) fun _ => ?_
    refine told_some (printed_key (shown_literal rfl) ((shown_literal rfl).append ?_))
    apply shown_getD _ (shown_literal rfl)
    intro s hs
    obtain ⟨t, -, rfl⟩ := Option.map_eq_some_iff.mp hs
    exact shown_nameOf _
  · exact told_none

theorem shown_rsaText (bits : ℕ) : Shown (rsaText bits) :=
  ((shown_literal rfl).append (shown_decimal _)).append (shown_literal rfl)

theorem pkcs1Private_told (parts : List Tlv) : Told (pkcs1Private parts) := by
  unfold pkcs1Private
  split
  · refine told_ite (fun _ => told_none) fun _ => ?_
    exact told_some (printed_key (shown_literal rfl) (shown_rsaText _))
  · exact told_none

theorem pkcs1Public_told (input : Bytes) : Told (pkcs1Public input) := by
  refine told_bind fun bits _ => ?_
  exact told_some ((Printed.new (shown_literal rfl)).fact (shown_literal rfl) (shown_rsaText _))

theorem shown_schemeText (alg : Tlv) : ShownIfAny (schemeText alg) := by
  refine shownIfAny_bind fun oid _ => ?_
  dsimp only
  split_ifs
  · refine shownIfAny_bind fun params _ => ?_
    refine shownIfAny_bind fun scheme hscheme => ?_
    obtain ⟨hkdf, hcipher⟩ := shown_pbes2 hscheme
    exact shownIfAny_some ((hcipher.append (shown_literal rfl)).append hkdf)
  · exact shownIfAny_some (shown_nameOf _)

theorem shown_macData (mac : Tlv) : ShownIfAny (macData mac) := by
  refine shownIfAny_bind fun parts _ => ?_
  refine shownIfAny_bind fun first _ => ?_
  refine shownIfAny_bind fun digestInfo _ => ?_
  refine shownIfAny_bind fun head _ => ?_
  refine shownIfAny_bind fun oid _ => ?_
  dsimp only
  split
  · exact shownIfAny_some (((((shown_literal rfl).append (shown_nameOf _)).append
      (shown_literal rfl)).append (shown_decimal _)).append (shown_literal rfl))
  · exact shownIfAny_some ((shown_literal rfl).append (shown_nameOf _))

theorem bagProtection_shown {out out' : List Str} {bag : Tlv} (hout : AllShown out)
    (h : bagProtection out bag = some out') : AllShown out' := by
  obtain ⟨bagParts, -, h⟩ := Option.bind_eq_some_iff.mp h
  obtain ⟨first, -, h⟩ := Option.bind_eq_some_iff.mp h
  split_ifs at h
  · obtain ⟨second, -, h⟩ := Option.bind_eq_some_iff.mp h
    obtain ⟨value, -, h⟩ := Option.bind_eq_some_iff.mp h
    obtain ⟨key, -, h⟩ := Option.bind_eq_some_iff.mp h
    obtain ⟨head, -, h⟩ := Option.bind_eq_some_iff.mp h
    obtain ⟨scheme, hscheme, h⟩ := Option.bind_eq_some_iff.mp h
    cases h
    exact hout.append (allShown_singleton ((shown_literal rfl).append (shown_schemeText _ _ hscheme)))
  · cases h
    exact hout

theorem infoProtection_shown {out out' : List Str} {info : Tlv} (hout : AllShown out)
    (h : infoProtection out info = some out') : AllShown out' := by
  obtain ⟨parts, -, h⟩ := Option.bind_eq_some_iff.mp h
  obtain ⟨first, -, h⟩ := Option.bind_eq_some_iff.mp h
  obtain ⟨inner, -, h⟩ := Option.bind_eq_some_iff.mp h
  split_ifs at h
  · obtain ⟨fields, -, h⟩ := Option.bind_eq_some_iff.mp h
    obtain ⟨second, -, h⟩ := Option.bind_eq_some_iff.mp h
    obtain ⟨eci, -, h⟩ := Option.bind_eq_some_iff.mp h
    obtain ⟨alg, -, h⟩ := Option.bind_eq_some_iff.mp h
    obtain ⟨scheme, hscheme, h⟩ := Option.bind_eq_some_iff.mp h
    cases h
    exact hout.append (allShown_singleton ((shown_literal rfl).append (shown_schemeText _ _ hscheme)))
  · obtain ⟨bags, -, h⟩ := Option.bind_eq_some_iff.mp h
    obtain ⟨parts, -, h⟩ := Option.bind_eq_some_iff.mp h
    exact foldlM_invariant (fun _ _ _ => bagProtection_shown) hout h
  · cases h
    exact hout

theorem pkcs12Protection_shown {authSafe : Tlv} {out : List Str}
    (h : pkcs12Protection authSafe = some out) : AllShown out := by
  obtain ⟨content, -, h⟩ := Option.bind_eq_some_iff.mp h
  obtain ⟨octets, -, h⟩ := Option.bind_eq_some_iff.mp h
  obtain ⟨infos, -, h⟩ := Option.bind_eq_some_iff.mp h
  obtain ⟨parts, -, h⟩ := Option.bind_eq_some_iff.mp h
  exact foldlM_invariant (fun _ _ _ => infoProtection_shown) allShown_nil h

theorem pkcs12_told (parts : List Tlv) : Told (pkcs12 parts) := by
  unfold pkcs12
  split
  next version authSafe rest =>
    refine told_ite (fun _ => told_none) fun _ => ?_
    have hbundle : Printed (Finding.new "PKCS#12 bundle (PFX)") := Printed.new (shown_literal rfl)
    have hfound : Printed (Formats.member (.new "PKCS#12 bundle (PFX)") "integrity"
        (rest.head?.bind macData)) := by
      unfold Formats.member
      split
      next mac hmac =>
        obtain ⟨t, -, hmac⟩ := Option.bind_eq_some_iff.mp hmac
        exact hbundle.fact (shown_literal rfl) (shown_macData _ _ hmac)
      · exact hbundle
    have hprotection : AllShown ((pkcs12Protection authSafe).getD []) := by
      cases hsome : pkcs12Protection authSafe with
      | none => exact allShown_nil
      | some out => exact pkcs12Protection_shown hsome
    refine told_ite (fun _ => told_some hfound) fun _ => ?_
    exact told_some (hfound.fact (shown_literal rfl) (shown_join (shown_literal rfl) hprotection))
  · exact told_none

theorem shown_recipient (info : Tlv) : ShownIfAny (recipient info) := by
  refine shownIfAny_bind fun parts _ => ?_
  split_ifs
  · refine shownIfAny_bind fun alg _ => ?_
    refine shownIfAny_bind fun oid _ => ?_
    exact shownIfAny_some ((shown_literal rfl).append (shown_nameOf _))
  · exact shownIfAny_some (shown_literal rfl)
  · exact shownIfAny_some (shown_literal rfl)
  · exact shownIfAny_some (shown_literal rfl)
  · exact shownIfAny_none

theorem shown_signer (info : Tlv) : ShownIfAny (signer info) := by
  refine shownIfAny_bind fun parts _ => ?_
  refine shownIfAny_bind fun oid _ => ?_
  exact shownIfAny_some (shown_nameOf _)

theorem shown_map_getD {α : Type} {o : Option α} {f : α → Str} (hf : ∀ a, Shown (f a)) :
    Shown ((o.map f).getD []) := by
  cases o with
  | none => exact shown_nil
  | some a => exact hf a

theorem envelopedData_told {kind : Str} (hkind : Shown kind) (fields : List Tlv) :
    Told (envelopedData kind fields) := by
  refine told_bind fun seq _ => ?_
  refine told_bind fun eci _ => ?_
  refine told_bind fun second _ => ?_
  refine told_bind fun oid _ => ?_
  have hfound : Printed ((Finding.new ("CMS ".toList ++ kind ++ " (S/MIME, PKCS#7)".toList)).fact
      "cipher" (nameOf oid.1)) :=
    (Printed.new (((shown_literal rfl).append hkind).append (shown_literal rfl))).fact
      (shown_literal rfl) (shown_nameOf _)
  refine told_ite (fun _ => told_some hfound) fun _ => ?_
  exact told_some (hfound.fact (shown_literal rfl)
    (shown_map_getD fun r => shown_join (shown_literal rfl) (allShown_filterMap shown_recipient r)))

theorem signedData_printed (fields : List Tlv) : Printed (signedData fields) := by
  have hdigests : Shown (Str.join ", " (((setOf fields).map fun d =>
      (d.filterMap algorithm).map fun e => nameOf e.1).getD [])) := by
    apply shown_join (shown_literal rfl)
    intro s hs
    cases hset : setOf fields with
    | none =>
      rw [hset] at hs
      exact absurd hs List.not_mem_nil
    | some d =>
      rw [hset] at hs
      obtain ⟨o, -, rfl⟩ := List.mem_map.mp hs
      exact shown_nameOf _
  have hfound := (Printed.new (shown_literal rfl) : Printed (.new "CMS signed data (S/MIME, PKCS#7)")).fact
    (shown_literal rfl : Shown "digest".toList) hdigests
  unfold signedData
  dsimp only
  split
  · exact hfound
  · exact hfound.fact (shown_literal rfl) (shown_map_getD fun s =>
      shown_join (shown_literal rfl) (allShown_filterMap shown_signer s))

theorem cms_told (parts : List Tlv) : Told (cms parts) := by
  unfold cms
  split
  · refine told_ite (fun _ => told_none) fun _ => ?_
    refine told_bind fun inner _ => ?_
    refine told_bind fun fields _ => ?_
    refine told_ite (fun _ => envelopedData_told (shown_nameOf _) fields) fun _ => ?_
    refine told_ite (fun _ => told_some (signedData_printed fields)) fun _ => ?_
    refine told_ite (fun _ => ?_) fun _ => told_none
    refine told_bind fun second _ => ?_
    refine told_bind fun eci _ => ?_
    refine told_bind fun alg _ => ?_
    refine told_bind fun scheme hscheme => ?_
    exact told_some ((Printed.new (shown_literal rfl)).fact (shown_literal rfl)
      (shown_schemeText _ _ hscheme))
  · exact told_none

theorem fromDer_told (input : Bytes) : Told (fromDer input) := by
  refine told_bind fun outer _ => ?_
  refine told_bind fun parts _ => ?_
  apply told_findSome
  simp only [families, List.forall_mem_cons, List.not_mem_nil, false_imp_iff, implies_true, and_true]
  exact ⟨certificate_told _, request_told _, revocationList_told _, pkcs8_told _,
    encryptedPkcs8_told _, spki_told _, pkcs12_told _, cms_told _, sec1_told _, pkcs1Private_told _⟩

end Pkix
end Krypto.Inspect
