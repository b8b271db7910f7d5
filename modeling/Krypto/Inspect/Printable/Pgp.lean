import Krypto.Inspect.Printable.Texts

/-! What the OpenPGP packets tell is printable, and its name begins with `OpenPGP`. -/

namespace Krypto.Inspect.Pgp
open Effect

theorem shown_nameIn {table : List (UInt8 × String)} {what : String}
    (htable : ∀ e ∈ table, Shown e.2.toList) (hwhat : Shown what.toList) (id : UInt8) :
    Shown (nameIn table what id) := by
  unfold nameIn
  cases h : table.lookup id with
  | some name =>
    obtain ⟨front, back, hsplit, -⟩ := List.lookup_eq_some_iff.mp h
    exact htable (id, name) (by simp [hsplit])
  | none => exact (hwhat.append (shown_char (by decide))).append (shown_decimal _)

theorem shown_publicKeyAlgorithm (id : UInt8) : Shown (publicKeyAlgorithm id) :=
  shown_nameIn (by decide +kernel) (shown_literal rfl) id

theorem shown_symmetricAlgorithm (id : UInt8) : Shown (symmetricAlgorithm id) :=
  shown_nameIn (by decide +kernel) (shown_literal rfl) id

theorem shown_hashAlgorithm (id : UInt8) : Shown (hashAlgorithm id) :=
  shown_nameIn (by decide +kernel) (shown_literal rfl) id

theorem shown_aeadAlgorithm (id : UInt8) : Shown (aeadAlgorithm id) :=
  shown_nameIn (by decide +kernel) (shown_literal rfl) id

theorem shown_curve (oid : Bytes) : Shown (curve oid) := by
  unfold curve
  split_ifs <;> exact shown_literal rfl

theorem shown_keyDescription (body : Bytes) : ShownIfAny (keyDescription body) := by
  refine shownIfAny_bind fun version _ => ?_
  apply shownIfAny_ite
  · exact shownIfAny_some ((shown_literal rfl).append (shown_decimal _))
  · refine shownIfAny_bind fun alg _ => ?_
    refine shownIfAny_bind fun material _ => ?_
    have hname := shown_publicKeyAlgorithm alg
    apply shownIfAny_ite
    · refine shownIfAny_bind fun bits _ => ?_
      exact shownIfAny_some (((hname.append (shown_char (by decide))).append (shown_decimal _)).append
        (shown_literal rfl))
    · apply shownIfAny_ite
      · refine shownIfAny_bind fun len _ => ?_
        refine shownIfAny_bind fun oid _ => ?_
        exact shownIfAny_some ((hname.append (shown_char (by decide))).append (shown_curve _))
      · exact shownIfAny_some hname

theorem shown_dataPacket (tag : UInt8) (head : Bytes) : Shown (dataPacket tag head) := by
  unfold dataPacket
  split_ifs
  · split
    · exact (((shown_symmetricAlgorithm _).append (shown_literal rfl)).append
        (shown_aeadAlgorithm _)).append (shown_literal rfl)
    · exact shown_literal rfl
  · split
    · exact (((shown_symmetricAlgorithm _).append (shown_literal rfl)).append
        (shown_aeadAlgorithm _)).append (shown_literal rfl)
    · exact shown_literal rfl
  · exact shown_literal rfl

theorem shown_s2k (spec : Bytes) : Shown (s2k spec) := by
  unfold s2k
  split
  · exact ((shown_literal rfl).append (shown_hashAlgorithm _)).append (shown_literal rfl)
  · exact (shown_literal rfl).append (shown_hashAlgorithm _)
  · split
    · split_ifs
      · exact ((((shown_literal rfl).append (shown_hashAlgorithm _)).append (shown_literal rfl)).append
          (shown_decimal _)).append (shown_literal rfl)
      · exact shown_literal rfl
    · exact shown_literal rfl
  · exact shown_literal rfl
  · exact shown_literal rfl

theorem shown_recipientText {body : Bytes} {text : Option Str} (h : recipientText body = some text) :
    AllShown text.toList := by
  obtain ⟨version, -, h⟩ := Option.bind_eq_some_iff.mp h
  split_ifs at h
  · obtain ⟨alg, -, h⟩ := Option.bind_eq_some_iff.mp h
    obtain ⟨id, -, h⟩ := Option.bind_eq_some_iff.mp h
    cases h
    exact allShown_singleton (((shown_publicKeyAlgorithm _).append (shown_literal rfl)).append
      (shown_hex _))
  · obtain ⟨len, -, h⟩ := Option.bind_eq_some_iff.mp h
    obtain ⟨alg, -, h⟩ := Option.bind_eq_some_iff.mp h
    cases h
    exact allShown_singleton (shown_publicKeyAlgorithm _)
  · cases h
    exact allShown_nil

theorem shown_passphraseText {body : Bytes} {text : Option Str}
    (h : passphraseText body = some text) : AllShown text.toList := by
  obtain ⟨version, -, h⟩ := Option.bind_eq_some_iff.mp h
  split at h
  · obtain ⟨sym, -, h⟩ := Option.bind_eq_some_iff.mp h
    obtain ⟨spec, -, h⟩ := Option.bind_eq_some_iff.mp h
    cases h
    exact allShown_singleton (((shown_symmetricAlgorithm _).append (shown_literal rfl)).append
      (shown_s2k _))
  split at h
  · obtain ⟨sym, -, h⟩ := Option.bind_eq_some_iff.mp h
    obtain ⟨aead, -, h⟩ := Option.bind_eq_some_iff.mp h
    cases h
    exact allShown_singleton (((shown_symmetricAlgorithm _).append (shown_literal rfl)).append
      (shown_aeadAlgorithm _))
  · cases h
    exact allShown_nil

structure Message.Shows (m : Message) : Prop where
  recipients : AllShown m.recipients
  passphrases : AllShown m.passphrases
  data : ShownIfAny m.data

theorem Message.Shows.add {m m' : Message} {p : Packet} (hm : m.Shows) (h : m.add p = some m') :
    m'.Shows := by
  unfold Message.add at h
  have hdata (head : Bytes) : Shows { m with data := some (dataPacket p.tag head) } :=
    ⟨hm.recipients, hm.passphrases, shownIfAny_some (shown_dataPacket _ _)⟩
  split at h
  · split_ifs at h
    · cases h
      exact hdata _
    · cases h
      exact hm
  · split_ifs at h
    · obtain ⟨text, htext, h⟩ := Option.bind_eq_some_iff.mp h
      cases h
      exact ⟨hm.recipients.append (shown_recipientText htext), hm.passphrases, hm.data⟩
    · obtain ⟨text, htext, h⟩ := Option.bind_eq_some_iff.mp h
      cases h
      exact ⟨hm.recipients, hm.passphrases.append (shown_passphraseText htext), hm.data⟩
    · cases h
      exact hdata _
    · cases h
      exact hm

theorem Message.Shows.finding {m : Message} (hm : m.Shows) : Printed m.finding := by
  have hnew : Printed (Finding.new "OpenPGP encrypted message") := Printed.new (shown_literal rfl)
  have hrecipients := hnew.factUnless (c := m.recipients = []) (shown_literal rfl : Shown "recipients".toList)
    (shown_join (shown_literal rfl : Shown ", ".toList) hm.recipients)
  have hpassphrases := hrecipients.factUnless (c := m.passphrases = [])
    (shown_literal rfl : Shown "passphrase".toList)
    (shown_join (shown_literal rfl : Shown ", ".toList) hm.passphrases)
  exact hpassphrases.factIfAny (shown_literal rfl : Shown "data".toList) hm.data

theorem Message.finding_what (m : Message) : m.finding.what = "OpenPGP encrypted message".toList := by
  unfold Message.finding
  dsimp only
  split <;> split <;> split <;> rfl

def Names (r : Option Finding) : Prop :=
  ∀ f, r = some f → Printed f ∧ f.what.head? = some 'O'

theorem message_names (packets : List Packet) : Names (message packets) := by
  intro f hf
  obtain ⟨m, hm, hf⟩ := Option.bind_eq_some_iff.mp hf
  cases hf
  have hshows : m.Shows := by
    refine foldlM_invariant (I := Message.Shows) (fun _ _ _ h => h.add) ?_ hm
    exact ⟨allShown_nil, allShown_nil, shownIfAny_none⟩
  refine ⟨hshows.finding, ?_⟩
  rw [Message.finding_what]
  rfl

theorem signature_names (packets : List Packet) : Names (signature packets) := by
  intro f hf
  obtain ⟨first, -, hf⟩ := Option.bind_eq_some_iff.mp hf
  obtain ⟨body, -, hf⟩ := Option.bind_eq_some_iff.mp hf
  obtain ⟨version, -, hf⟩ := Option.bind_eq_some_iff.mp hf
  have hnew : Printed (Finding.new "OpenPGP signature") := Printed.new (shown_literal rfl)
  split_ifs at hf
  · obtain ⟨alg, -, hf⟩ := Option.bind_eq_some_iff.mp hf
    obtain ⟨hash, -, hf⟩ := Option.bind_eq_some_iff.mp hf
    cases hf
    exact ⟨(hnew.fact (shown_literal rfl) (shown_publicKeyAlgorithm _)).fact (shown_literal rfl)
      (shown_hashAlgorithm _), rfl⟩
  · obtain ⟨alg, -, hf⟩ := Option.bind_eq_some_iff.mp hf
    obtain ⟨hash, -, hf⟩ := Option.bind_eq_some_iff.mp hf
    cases hf
    exact ⟨(hnew.fact (shown_literal rfl) (shown_publicKeyAlgorithm _)).fact (shown_literal rfl)
      (shown_hashAlgorithm _), rfl⟩
  · cases hf
    exact ⟨hnew.fact (shown_literal rfl) (shown_decimal _), rfl⟩

theorem key_names (packets : List Packet) : Names (key packets) := by
  intro f hf
  obtain ⟨first, -, hf⟩ := Option.bind_eq_some_iff.mp hf
  obtain ⟨body, -, hf⟩ := Option.bind_eq_some_iff.mp hf
  obtain ⟨primary, hprimary, hf⟩ := Option.bind_eq_some_iff.mp hf
  have hsubkeys : AllShown ((packets.filter fun p => p.tag = 14 ∨ p.tag = 7).filterMap
      fun p => p.body.bind keyDescription) := by
    refine allShown_filterMap (fun p => ?_) _
    exact shownIfAny_bind fun body _ => shown_keyDescription body
  dsimp only at hf
  generalize (packets.filter fun p => p.tag = 14 ∨ p.tag = 7).filterMap
    (fun p => p.body.bind keyDescription) = subkeys at hf hsubkeys
  have hfound {what : Str} (hwhat : Shown what) :=
    (((Printed.new hwhat).fact (shown_literal rfl : Shown "primary key".toList)
      (shown_keyDescription body _ hprimary)).factUnless (c := subkeys = [])
        (shown_literal rfl : Shown "subkeys".toList)
          (shown_join (shown_literal rfl : Shown ", ".toList) hsubkeys)).fact
            (shown_literal rfl : Shown "user ids".toList)
              (shown_decimal (packets.filter fun p => p.tag = 13).length)
  split at hf
  · cases hf
    refine ⟨(hfound (shown_literal rfl)).fact (shown_literal rfl : Shown "key".toList)
      (shown_literal rfl : Shown "not shown".toList), ?_⟩
    split_ifs <;> rfl
  · cases hf
    refine ⟨hfound (shown_literal rfl), ?_⟩
    split_ifs <;> rfl

theorem fromBinary_names (input : Bytes) : Names (fromBinary input) := by
  intro f hf
  obtain ⟨packets, -, hf⟩ := Option.bind_eq_some_iff.mp hf
  obtain ⟨first, -, hf⟩ := Option.bind_eq_some_iff.mp hf
  split_ifs at hf
  · exact message_names _ f hf
  · exact signature_names _ f hf
  · exact key_names _ f hf
  · cases hf
    exact ⟨Printed.new (shown_literal rfl), rfl⟩

end Krypto.Inspect.Pgp
