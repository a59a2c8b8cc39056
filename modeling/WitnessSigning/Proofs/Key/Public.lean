import WitnessSigning.Key.Private
import WitnessSigning.Proofs.Curve.Encoding

/-!
# Public keys and private keys

A public key is read back from its own octets (`WitnessSigning.PublicKey.ofBytes_bytes`), and every
point of the curve other than infinity has one. So every private key has a public key, which holds
the generator's multiple by the scalar (`WitnessSigning.PrivateKey.exists_publicKey`). As the
compressed form determines the point, the public key determines the scalar
(`WitnessSigning.PrivateKey.scalar_eq_of_publicKey_eq`).

A public key comes from octets, or from a private key as the multiple that its scalar gives. That
multiple is compressed and read like any other octets, which never refuses it. Both ways lead to
points of the curve, and to the same key for the same octets
(`WitnessSigning.PublicKey.onCurve_derived_or_read`).
-/

namespace WitnessSigning

namespace PublicKey

/-- A public key is read from its own octets only. -/
theorem bytes_of_ofBytes {bs : Bytes} {key : PublicKey} (h : ofBytes bs = .ok key) :
    key.bytes = bs := by
  rw [ofBytes] at h
  split at h
  · split at h
    · cases h
    · next encoding hencoding =>
      split at h
      · cases h
      · cases h
        exact Octets.ofList?_eq_some_iff.1 hencoding
  · cases h

/-- What is read as a point from 33 octets starts with the tag of a compressed form. -/
theorem hasForm_bytes (key : PublicKey) : hasForm key.bytes = true := by
  have hread := key.ofBytes?_encoding
  have hl := key.encoding.length_toList
  rw [hasForm, bytes]
  match hbytes : key.encoding.toList with
  | [] => rw [hbytes] at hl; cases hl
  | tag :: rest =>
    rw [hbytes] at hread hl
    have hrest : rest.length = 32 := Nat.succ.inj hl
    have htag : tag = 2 ∨ tag = 3 := by
      by_contra hno
      rw [Point.ofBytes?] at hread
      rcases Decidable.em (tag = 0) with h0 | h0
      · -- infinity is a single octet
        have hne : rest ≠ [] := List.ne_nil_of_length_pos (by omega)
        rw [if_pos h0, if_neg hne] at hread
        cases hread
      · -- the other forms have a second coordinate behind the first one
        have hempty : Point.coordinate? (rest.drop 32) = none := by
          rw [List.drop_of_length_le hrest.le]
          rfl
        rw [if_neg h0, if_neg hno, hempty] at hread
        split at hread
        · simp at hread
        · cases hread
    rcases htag with rfl | rfl
    · simp [hl]
    · simp [hl]

/-- **The point of a public key** lies on the curve. -/
theorem onCurve_point (key : PublicKey) : key.point.OnCurve :=
  Point.onCurve_of_ofBytes? key.ofBytes?_encoding

/-- **A public key is read back from its octets.** -/
theorem ofBytes_bytes (key : PublicKey) : ofBytes key.bytes = .ok key := by
  rw [ofBytes, if_pos key.hasForm_bytes, bytes, Octets.ofList?_toList]
  simp only
  split
  · next h => rw [key.ofBytes?_encoding] at h; cases h
  · next point h =>
    rw [key.ofBytes?_encoding] at h
    cases h
    rfl

/-- **A public key is read** from its octets and from nothing else. -/
theorem ofBytes_eq_ok_iff {bs : Bytes} {key : PublicKey} :
    ofBytes bs = .ok key ↔ key.bytes = bs := by
  constructor
  · exact bytes_of_ofBytes
  · rintro rfl
    exact ofBytes_bytes key

/-- **Octets are read as a public key** if they have the form of one and are read as a point. -/
theorem exists_ofBytes_iff {bs : Bytes} : (∃ key, ofBytes bs = .ok key) ↔
    hasForm bs = true ∧ (Point.ofBytes? bs).isSome := by
  constructor
  · rintro ⟨key, h⟩
    obtain rfl := bytes_of_ofBytes h
    exact ⟨key.hasForm_bytes, Option.isSome_iff_exists.2 ⟨_, key.ofBytes?_encoding⟩⟩
  · rintro ⟨hform, hpoint⟩
    obtain ⟨P, hP⟩ := Option.isSome_iff_exists.1 hpoint
    have hl : bs.length = 33 := by
      rw [hasForm, Bool.and_eq_true, decide_eq_true_eq] at hform
      exact hform.1
    exact ⟨⟨⟨bs, hl⟩, P, hP⟩, ofBytes_eq_ok_iff.2 rfl⟩

/-- The octets of a public key are a tag and the first coordinate of a point. -/
theorem exists_ofBytes_iff_isSquare {bs : Bytes} : (∃ key, ofBytes bs = .ok key) ↔
    bs.length = 33 ∧ (bs.head? = some 2 ∨ bs.head? = some 3) ∧ ofBigEndian bs.tail < fieldPrime ∧
      IsSquare ((ofBigEndian bs.tail : ZMod fieldPrime) ^ 3 + 7) := by
  rw [exists_ofBytes_iff, hasForm, Bool.and_eq_true, decide_eq_true_eq, Bool.or_eq_true, beq_iff_eq,
    beq_iff_eq, and_assoc]
  refine and_congr_right fun hl => and_congr_right fun htag => ?_
  cases bs with
  | nil => cases hl
  | cons tag rest =>
    rw [Point.isSome_ofBytes?_iff (by simpa using htag)]
    exact and_iff_right (Nat.succ.inj hl)

/-- **Every point of the curve other than infinity has a public key.** -/
theorem exists_ofPoint {x y : Coordinate} (h : (Point.affine x y).OnCurve) :
    ∃ key : PublicKey, ofPoint (.affine x y) = .ok key ∧ key.point = .affine x y := by
  let key : PublicKey := ⟨Point.compressPair x y, .affine x y, Point.ofBytes?_compressPair h⟩
  refine ⟨key, Error.bind_eq_ok.2 ⟨key.encoding, rfl, ?_⟩, rfl⟩
  have hread : ofBytes key.encoding.toList = .ok key := key.ofBytes_bytes
  rw [hread]
  rfl

/-- The public key of a point has the point's compressed form. -/
theorem compress_of_ofPoint {P : Point} {key : PublicKey} (h : ofPoint P = .ok key) :
    P.compress = .ok key.encoding := by
  obtain ⟨encoding, hencoding, hkey⟩ := Error.bind_eq_ok.1 h
  -- the compressed form is read as the key, so it is the key's own
  have hread : ofBytes encoding.toList = .ok key := by
    cases hbytes : ofBytes encoding.toList with
    | error fault =>
      rw [hbytes] at hkey
      cases hkey
    | ok key' =>
      rw [hbytes] at hkey
      exact congrArg _ (Except.ok.inj hkey)
  rw [hencoding, Octets.ext_toList (bytes_of_ofBytes hread)]

end PublicKey

namespace PrivateKey

theorem ofBigEndian_secret (key : PrivateKey) : ofBigEndian key.secret.toList = key.scalar.val :=
  ofBigEndian_bigEndian_of_lt (key.scalar.isLt.trans (by decide))

/-- **A public key belongs to one scalar only.** -/
theorem scalar_eq_of_publicKey_eq {key key' : PrivateKey} {participant : PublicKey}
    (h : key.publicKey = .ok participant) (h' : key'.publicKey = .ok participant) :
    key.scalar = key'.scalar :=
  generator_multiply_injective (Point.compress_injective (generator_multiply_onCurve _)
    (generator_multiply_onCurve _) (PublicKey.compress_of_ofPoint h)
    (PublicKey.compress_of_ofPoint h'))

/-- **Every private key has a public key**, which holds the generator's multiple by the scalar. -/
theorem exists_publicKey (key : PrivateKey) : ∃ participant : PublicKey,
    key.publicKey = .ok participant ∧ participant.point = generator.multiply key.scalar := by
  have honCurve := generator_multiply_onCurve key.scalar
  have hne := generator_multiply_ne_infinity key.scalar_ne_zero
  rw [publicKey]
  match generator.multiply key.scalar, honCurve, hne with
  | .affine x y, honCurve, _ => exact PublicKey.exists_ofPoint honCurve

/-- Private keys with the same scalar have the same public key, whatever their networks are. -/
theorem publicKey_congr {key key' : PrivateKey} (h : key.scalar = key'.scalar) :
    key.publicKey = key'.publicKey := by
  rw [publicKey, publicKey, h]

/-- **Private keys have the same public key** exactly if they have the same secret. -/
theorem publicKey_eq_iff {key key' : PrivateKey} :
    key.publicKey = key'.publicKey ↔ key.secret = key'.secret := by
  constructor
  · intro h
    obtain ⟨participant, hkey, -⟩ := key.exists_publicKey
    rw [secret, secret, scalar_eq_of_publicKey_eq hkey (h ▸ hkey)]
  · intro h
    refine publicKey_congr (Fin.ext ?_)
    rw [← ofBigEndian_secret, h, ofBigEndian_secret]

end PrivateKey

/-! ### Both ways to a public key -/

/-- **A public key is a point of the curve, whether it is derived or read.** The generator has the
group order in the group of the curve. Every private key has a public key, which is the compressed
form of the multiple of the generator by the secret and is read back as itself, and private keys
share a public key exactly if they share the secret. Octets are read as a public key exactly if they
are one of the two tags and 32 octets of a number below the field prime whose cube is seven less
than a square. -/
theorem PublicKey.onCurve_derived_or_read :
    (∃ G : curve.Point, Point.ofGroup G = generator ∧ addOrderOf G = groupOrder ∧
        ∀ key : PrivateKey, ∃ participant : PublicKey, key.publicKey = .ok participant ∧
          participant.point = Point.ofGroup (ofBigEndian key.secret.toList • G) ∧
          participant.point.compress = .ok participant.encoding ∧
          PublicKey.ofBytes participant.bytes = .ok participant) ∧
      (∀ key key' : PrivateKey, key.publicKey = key'.publicKey ↔ key.secret = key'.secret) ∧
      ∀ bs : Bytes, (∃ participant, PublicKey.ofBytes bs = .ok participant) ↔
        bs.length = 33 ∧ (bs.head? = some 0x02 ∨ bs.head? = some 0x03) ∧
          ofBigEndian bs.tail < fieldPrime ∧
          IsSquare ((ofBigEndian bs.tail : ZMod fieldPrime) ^ 3 + 7) := by
  obtain ⟨G, hG⟩ := Point.onCurve_iff_exists.1 generator_onCurve
  refine ⟨⟨G, hG, addOrderOf_generator hG, fun key => ?_⟩,
    fun key key' => PrivateKey.publicKey_eq_iff,
    fun bs => PublicKey.exists_ofBytes_iff_isSquare⟩
  obtain ⟨participant, hkey, hpoint⟩ := key.exists_publicKey
  refine ⟨participant, hkey, ?_, ?_, participant.ofBytes_bytes⟩
  · rw [hpoint, ← hG, Point.multiply_ofGroup, key.ofBigEndian_secret]
  · rw [hpoint]
    exact PublicKey.compress_of_ofPoint hkey

end WitnessSigning
