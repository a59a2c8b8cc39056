import WitnessSigning.Key.Private
import WitnessSigning.Proofs.Key.Public
import WitnessSigning.Proofs.Text.Base58

/-!
# Private keys as text

The text of a private key holds its secret and its flag, and of its network whether it is the
mainnet. So the key that is read from it is the key itself, but for a network that shares the
version octet with the testnet (`WitnessSigning.PrivateKey.ofWif_toWif`).

Nothing else is read as a key (`WitnessSigning.PrivateKey.ofWif_eq_ok_iff`). In particular the final
octet is taken for the flag only behind 32 others, so a secret that ends like a flag is not cut
short, and octets one short of a key with a flag are not taken for one without.
-/

namespace WitnessSigning.PrivateKey

variable {secret payload : Bytes} {network : Network} {compressed : Bool} {key : PrivateKey}

/-! ### Secrets -/

/-- **A private key is made** from its secret, its network and its flag, and from nothing else. -/
theorem ofSecret_eq_ok_iff : ofSecret secret network compressed = .ok key ↔
    key.secret.toList = secret ∧ key.network = network ∧ key.compressed = compressed := by
  constructor
  · intro h
    rw [ofSecret] at h
    split at h
    · next hl =>
      split at h
      · split at h
        · obtain rfl := Except.ok.inj h
          exact ⟨congrArg Octets.toList (bigEndian_ofBigEndian ⟨secret, hl⟩), rfl, rfl⟩
        · cases h
      · cases h
    · cases h
  · rintro ⟨rfl, rfl, rfl⟩
    have hvalue := key.ofBigEndian_secret
    have hlt : ofBigEndian key.secret.toList < groupOrder := hvalue ▸ key.scalar.isLt
    have hscalar : (⟨ofBigEndian key.secret.toList, hlt⟩ : Scalar) = key.scalar := Fin.ext hvalue
    have hne : (⟨ofBigEndian key.secret.toList, hlt⟩ : Scalar) ≠ 0 := hscalar ▸ key.scalar_ne_zero
    rw [ofSecret, if_pos key.secret.length_toList, dif_pos hlt, dif_pos hne]
    simp only [hscalar]

/-- **What is no secret** is refused as a private key. -/
theorem kind_of_ofSecret_eq_error {e : Error} (h : ofSecret secret network compressed = .error e) :
    e.kind = .invalidPrivateKey := by
  rw [ofSecret] at h
  split at h
  · split at h
    · split at h
      · cases h
      · cases h
        rfl
    · cases h
      rfl
  · cases h
    rfl

/-- **The secrets of private keys** are the numbers from 1 to below the order of the curve, in 32
octets. -/
theorem exists_secret_iff (network : Network) (compressed : Bool) :
    (∃ key : PrivateKey, key.secret.toList = secret ∧ key.network = network ∧
        key.compressed = compressed) ↔
      secret.length = 32 ∧ 1 ≤ ofBigEndian secret ∧ ofBigEndian secret < groupOrder := by
  constructor
  · rintro ⟨key, rfl, -⟩
    rw [ofBigEndian_secret]
    refine ⟨key.secret.length_toList, Nat.pos_of_ne_zero fun h => ?_, key.scalar.isLt⟩
    exact key.scalar_ne_zero (Fin.ext h)
  · rintro ⟨hl, hpos, hlt⟩
    have hne : (⟨ofBigEndian secret, hlt⟩ : Scalar) ≠ 0 := fun h => by
      have hzero : ofBigEndian secret = 0 := congrArg Fin.val h
      omega
    exact ⟨⟨_, hne, network, compressed⟩,
      congrArg Octets.toList (bigEndian_ofBigEndian ⟨secret, hl⟩), rfl, rfl⟩

/-! ### Payloads -/

/-- **The two versions** are those of the mainnet and the testnet. -/
theorem networkOfVersion?_eq_some_iff {version : UInt8} :
    networkOfVersion? version = some network ↔
      wifVersion network = version ∧ (network = .mainnet ∨ network = .testnet) := by
  rw [networkOfVersion?]
  constructor
  · intro h
    split at h
    · next hversion =>
      obtain rfl := Option.some.inj h
      exact ⟨hversion.symm, .inl rfl⟩
    · obtain ⟨hversion, h⟩ := Option.ite_none_right_eq_some.1 h
      obtain rfl := Option.some.inj h
      exact ⟨hversion.symm, .inr rfl⟩
  · rintro ⟨rfl, rfl | rfl⟩
    · rfl
    · rfl

/-- What is read as a key is what is written for it. -/
theorem wifPayload_of_ofWifPayload (h : ofWifPayload payload = .ok key) :
    key.wifPayload = payload ∧ (key.network = .mainnet ∨ key.network = .testnet) := by
  rw [ofWifPayload.eq_def] at h
  split at h
  · cases h
  split at h
  · cases h
  next version rest network hnetwork =>
  obtain ⟨rfl, hshared⟩ := networkOfVersion?_eq_some_iff.1 hnetwork
  split at h
  · -- a flag stands behind 32 octets
    next hflag =>
    obtain ⟨hl, hlast⟩ := hflag
    obtain ⟨secret, rfl⟩ := List.getLast?_eq_some_iff.1 hlast
    have hsecret : secret.length = 32 := by simpa using hl
    rw [List.take_left' hsecret] at h
    obtain ⟨rfl, rfl, hcompressed⟩ := ofSecret_eq_ok_iff.1 h
    refine ⟨?_, hshared⟩
    rw [wifPayload, if_pos hcompressed]
  split at h
  · obtain ⟨rfl, rfl, hcompressed⟩ := ofSecret_eq_ok_iff.1 h
    refine ⟨?_, hshared⟩
    rw [wifPayload, hcompressed, if_neg Bool.false_ne_true, List.append_nil]
  · cases h

/-- What is written for a key is read as it, if its network has a version of its own. -/
theorem ofWifPayload_wifPayload (hnetwork : key.network = .mainnet ∨ key.network = .testnet) :
    ofWifPayload key.wifPayload = .ok key := by
  have hl := key.secret.length_toList
  rw [wifPayload, ofWifPayload, networkOfVersion?_eq_some_iff.2 ⟨rfl, hnetwork⟩]
  cases hcompressed : key.compressed with
  | false =>
    -- 32 octets are too few for a flag, whatever the last one is
    have hshort : ¬(key.secret.toList.length = 33 ∧
        key.secret.toList.getLast? = some compressedFlag) := fun h => by omega
    simp only [Bool.false_eq_true, if_false, List.append_nil, if_neg hshort, if_pos hl]
    exact ofSecret_eq_ok_iff.2 ⟨rfl, rfl, hcompressed⟩
  | true =>
    have hlong : (key.secret.toList ++ [compressedFlag]).length = 33 := by
      rw [List.length_append, hl]
      rfl
    simp only [if_true, hlong, List.getLast?_concat, and_self, List.take_left' hl]
    exact ofSecret_eq_ok_iff.2 ⟨rfl, rfl, hcompressed⟩

/-- **A key is read** from the octets that are written for it, if its network has a version of its
own, and from no others. -/
theorem ofWifPayload_eq_ok_iff : ofWifPayload payload = .ok key ↔
    key.wifPayload = payload ∧ (key.network = .mainnet ∨ key.network = .testnet) := by
  refine ⟨wifPayload_of_ofWifPayload, ?_⟩
  rintro ⟨rfl, hnetwork⟩
  exact ofWifPayload_wifPayload hnetwork

/-- **What is no payload of a key** is refused as a private key. -/
theorem kind_of_ofWifPayload_eq_error {e : Error} (h : ofWifPayload payload = .error e) :
    e.kind = .invalidPrivateKey := by
  rw [ofWifPayload.eq_def] at h
  split at h
  · cases h
    rfl
  split at h
  · cases h
    rfl
  split at h
  · exact kind_of_ofSecret_eq_error h
  split at h
  · exact kind_of_ofSecret_eq_error h
  · cases h
    rfl

/-- **The payloads of keys** are a version, a secret and, or not, the flag. -/
theorem exists_ofWifPayload_iff : (∃ key, ofWifPayload payload = .ok key) ↔
    ∃ (version : UInt8) (secret flag : Bytes), (version = 0x80 ∨ version = 0xef) ∧
      (secret.length = 32 ∧ 1 ≤ ofBigEndian secret ∧ ofBigEndian secret < groupOrder) ∧
      (flag = [] ∨ flag = [0x01]) ∧ payload = version :: (secret ++ flag) := by
  simp only [ofWifPayload_eq_ok_iff]
  constructor
  · rintro ⟨key, rfl, hnetwork⟩
    refine ⟨wifVersion key.network, key.secret.toList, _, ?_,
      (exists_secret_iff key.network key.compressed).1 ⟨key, rfl, rfl, rfl⟩, ?_, rfl⟩
    · rcases hnetwork with h | h
      · exact .inl (by rw [h, wifVersion])
      · exact .inr (by rw [h, wifVersion])
    · split
      · exact .inr rfl
      · exact .inl rfl
  · rintro ⟨version, secret, flag, hversion, hsecret, hflag, rfl⟩
    obtain ⟨network, hnetwork, rfl⟩ : ∃ network : Network,
        (network = .mainnet ∨ network = .testnet) ∧ wifVersion network = version := by
      rcases hversion with rfl | rfl
      · exact ⟨.mainnet, .inl rfl, rfl⟩
      · exact ⟨.testnet, .inr rfl, rfl⟩
    obtain ⟨compressed, rfl⟩ : ∃ compressed : Bool,
        (if compressed then [compressedFlag] else []) = flag := by
      rcases hflag with rfl | rfl
      · exact ⟨false, rfl⟩
      · exact ⟨true, rfl⟩
    obtain ⟨key, rfl, rfl, rfl⟩ := (exists_secret_iff network compressed).2 hsecret
    exact ⟨key, rfl, hnetwork⟩

/-! ### Texts -/

/-- **A key is read from its text**, and from nothing else. -/
theorem ofWif_eq_ok_iff {text : Text} : ofWif text = .ok key ↔
    key.toWif = text ∧ (key.network = .mainnet ∨ key.network = .testnet) := by
  rw [ofWif, Error.bind_eq_ok]
  simp only [Base58.decode_eq_ok_iff, ofWifPayload_eq_ok_iff]
  constructor
  · rintro ⟨_, rfl, rfl, hnetwork⟩
    exact ⟨rfl, hnetwork⟩
  · rintro ⟨rfl, hnetwork⟩
    exact ⟨_, rfl, rfl, hnetwork⟩

/-- **What is read from the text of a key** is the key, with the testnet for its other networks. -/
theorem ofWif_toWif (key : PrivateKey) : ofWif key.toWif =
    .ok { key with network := if key.network = .mainnet then .mainnet else .testnet } := by
  rcases key with ⟨scalar, hscalar, network, compressed⟩
  refine ofWif_eq_ok_iff.2 ?_
  cases network with
  | mainnet => exact ⟨rfl, .inl rfl⟩
  | testnet | signet | regtest => exact ⟨rfl, .inr rfl⟩

/-- **The texts of keys** are those of a version, a secret and, or not, the flag. -/
theorem exists_ofWif_iff {text : Text} : (∃ key, ofWif text = .ok key) ↔
    ∃ (version : UInt8) (secret flag : Bytes), (version = 0x80 ∨ version = 0xef) ∧
      (secret.length = 32 ∧ 1 ≤ ofBigEndian secret ∧ ofBigEndian secret < groupOrder) ∧
      (flag = [] ∨ flag = [0x01]) ∧ text = Base58.encode (version :: (secret ++ flag)) := by
  simp only [ofWif, Error.bind_eq_ok, Base58.decode_eq_ok_iff]
  constructor
  · rintro ⟨key, payload, rfl, hkey⟩
    obtain ⟨version, secret, flag, hversion, hsecret, hflag, rfl⟩ :=
      exists_ofWifPayload_iff.1 ⟨key, hkey⟩
    exact ⟨version, secret, flag, hversion, hsecret, hflag, rfl⟩
  · rintro ⟨version, secret, flag, hversion, hsecret, hflag, rfl⟩
    obtain ⟨key, hkey⟩ :=
      exists_ofWifPayload_iff.2 ⟨version, secret, flag, hversion, hsecret, hflag, rfl⟩
    exact ⟨key, _, rfl, hkey⟩

/-- **Private keys and their texts correspond**, but for the test networks, which share a version. A
key is read back from its text with its secret and its flag, and with the testnet for all networks
other than the mainnet. A text is read as a key exactly if it is the one of a version, 32 octets of
a number from 1 to below the order of the curve and, or not, the flag; it is then the text of the
key. Every other text is refused: as undecodable, with the very failure, exactly if it is no
Base58Check text, and as no private key otherwise. -/
theorem toWif_ofWif_correspond :
    (∀ key : PrivateKey, ofWif key.toWif =
        .ok { key with network := if key.network = .mainnet then .mainnet else .testnet }) ∧
      (∀ text : Text, (∃ key, ofWif text = .ok key) ↔
        ∃ (version : UInt8) (secret flag : Bytes), (version = 0x80 ∨ version = 0xef) ∧
          (secret.length = 32 ∧ 1 ≤ ofBigEndian secret ∧ ofBigEndian secret < groupOrder) ∧
          (flag = [] ∨ flag = [0x01]) ∧ text = Base58.encode (version :: (secret ++ flag))) ∧
      (∀ (text : Text) (key : PrivateKey), ofWif text = .ok key ↔
        key.toWif = text ∧ (key.network = .mainnet ∨ key.network = .testnet)) ∧
      (∀ (text : Text) (e : Error), Base58.decode text = .error e → ofWif text = .error e) ∧
      ∀ (text : Text) (e : Error), ofWif text = .error e →
        (e.kind = .decodeError ∧ Base58.decode text = .error e) ∨
          (e.kind = .invalidPrivateKey ∧ ∃ payload, Base58.decode text = .ok payload) := by
  refine ⟨ofWif_toWif, fun text => exists_ofWif_iff, fun text key => ofWif_eq_ok_iff,
    fun text e h => Error.bind_eq_error.2 (.inl h), fun text e h => ?_⟩
  rcases Error.bind_eq_error.1 h with hdecode | ⟨payload, hdecode, hpayload⟩
  · exact .inl ⟨Base58.kind_of_decode_eq_error hdecode, hdecode⟩
  · exact .inr ⟨kind_of_ofWifPayload_eq_error hpayload, payload, hdecode⟩

/-- The secret one ends like the flag. Without a flag it is read back as it is, and for the testnet;
with another octet in the place of the flag it is refused. An octet that is no digit is reported as
such. -/
theorem toWif_ofWif_correspond_one :
    let key : PrivateKey :=
      { scalar := 1, scalar_ne_zero := by decide, network := .signet, compressed := false }
    let payload : Bytes := 0x80 :: (key.secret.toList ++ [0x02])
    let noText := Text.ofString "0"
    ofWif key.toWif = .ok { key with network := .testnet } ∧
      (ofWif (Base58.encode payload) = .error .wifLength ∧
        ((Error.wifLength.kind = .decodeError ∧
            Base58.decode (Base58.encode payload) = .error .wifLength) ∨
          (Error.wifLength.kind = .invalidPrivateKey ∧
            ∃ payload', Base58.decode (Base58.encode payload) = .ok payload'))) ∧
      Base58.decode noText = .error (.base58Digit 48) ∧
      ofWif noText = .error (.base58Digit 48) := by
  intro key payload noText
  obtain ⟨hread, -, -, hundecoded, hrefused⟩ := toWif_ofWif_correspond
  have hlength : ofWif (Base58.encode payload) = .error .wifLength :=
    Error.bind_eq_error.2 (.inr ⟨payload, Base58.decode_eq_ok_iff.2 rfl, by decide +kernel⟩)
  have hnoText : Base58.decode noText = .error (.base58Digit 48) := by decide +kernel
  exact ⟨hread key, ⟨hlength, hrefused _ _ hlength⟩, hnoText, hundecoded noText _ hnoText⟩

end WitnessSigning.PrivateKey
