import WitnessSigning.Proofs.Text.Bech32
import WitnessSigning.Script.Locking

/-!
# Locking scripts and their addresses

A locking script has an address exactly if it pushes a program of 20 or 32 octets
(`WitnessSigning.programOfLocking?_eq_some_iff`). The address is short enough to be read for the
human-readable part of every network, and this part is all that tells the networks apart
(`WitnessSigning.Network.hrp_eq_iff`): an address splits at its last separator, so `bc` in front
of it is not taken for `bcrt`. Hence the script comes back on the networks with this part and
nothing comes back on the others (`WitnessSigning.decode?_encode_network`).
-/

namespace WitnessSigning

open Bech32 (decode? decode?_eq_some_iff encode)

/-! ### Scripts -/

/-- **The program of a locking script** is what the script pushes, if it has one
of the two lengths. -/
theorem programOfLocking?_eq_some_iff {locking program : Bytes} :
    programOfLocking? locking = some program ↔
      locking = lockingOfProgram program ∧ (program.length = 20 ∨ program.length = 32) := by
  constructor
  · intro h
    rw [programOfLocking?.eq_def] at h
    split at h
    · next version length pushed =>
      obtain ⟨⟨rfl, hlength, hsize⟩, hpushed⟩ := Option.ite_none_right_eq_some.1 h
      cases hpushed
      refine ⟨?_, hsize⟩
      rw [lockingOfProgram, ← hlength, UInt8.ofNat_toNat]
    · cases h
  · rintro ⟨rfl, hsize⟩
    have hlength : (UInt8.ofNat program.length).toNat = program.length :=
      UInt8.toNat_ofNat_of_lt' (by simp only [UInt8.size]; omega)
    rw [lockingOfProgram, programOfLocking?, if_pos ⟨rfl, hlength, hsize⟩]

theorem addressOfLocking?_eq_some_iff {locking : Bytes} {address : Text} {network : Network} :
    addressOfLocking? locking network = some address ↔ ∃ program : Bytes,
      (program.length = 20 ∨ program.length = 32) ∧ locking = lockingOfProgram program ∧
        address = encode network.hrp program := by
  rw [addressOfLocking?, Option.map_eq_some_iff]
  constructor
  · rintro ⟨program, h, rfl⟩
    obtain ⟨rfl, hsize⟩ := programOfLocking?_eq_some_iff.1 h
    exact ⟨program, hsize, rfl, rfl⟩
  · rintro ⟨program, hsize, rfl, rfl⟩
    exact ⟨program, programOfLocking?_eq_some_iff.2 ⟨rfl, hsize⟩, rfl⟩

theorem SpendingCondition.length_program (condition : SpendingCondition) :
    condition.program.length = 20 ∨ condition.program.length = 32 := by
  cases condition with
  | key k => exact .inl k.hash.length_toList
  | multisig script => exact .inr script.hash.length_toList

/-! ### Networks -/

namespace Network

variable (network : Network)

theorem hrp_ne_nil : network.hrp ≠ [] := by
  cases network <;> decide

theorem length_hrp_le : network.hrp.length ≤ 4 := by
  cases network <;> decide

theorem hrp_printable : ∀ c ∈ network.hrp, 33 ≤ c ∧ c ≤ 126 ∧ ¬Text.isUpper c := by
  cases network <;> decide +kernel

/-- **Only the testnet and the signet** have one human-readable part. -/
theorem hrp_eq_iff {N M : Network} :
    N.hrp = M.hrp ↔ N = M ∨ (N = testnet ∧ M = signet) ∨ (N = signet ∧ M = testnet) := by
  cases N <;> cases M <;> decide

end Network

/-! ### Addresses -/

variable {N M : Network} {program : Bytes}

/-- **The address of a program** is read on the networks with its human-readable part, and on no
other. -/
theorem decode?_encode_network (hsize : program.length = 20 ∨ program.length = 32) :
    decode? M.hrp (encode N.hrp program) = if N.hrp = M.hrp then some program else none := by
  split
  · next h =>
    rw [← h]
    refine Bech32.decode?_encode N.hrp_printable N.hrp_ne_nil hsize ?_
    have hhrp := N.length_hrp_le
    rw [Bech32.length_encode, Bech32.length_addressValues, Bech32.maxLength]
    omega
  · next h =>
    refine Option.eq_none_iff_forall_ne_some.2 fun program' hread => h ?_
    obtain ⟨-, hlower, -⟩ := (decode?_eq_some_iff M.hrp_ne_nil).1 hread
    rw [Bech32.map_lower_encode N.hrp_printable] at hlower
    exact Bech32.hrp_eq_of_encode_eq hlower

/-- **Addresses and locking scripts correspond one to one** within a network, and no address
crosses over to another. A locking script has an address exactly if it is the version and the
length of 20 or 32 octets in front of them; that address is read back to the script on the
networks that share the human-readable part, and to nothing on the others. Whatever is read as
a script has, in lower case, the address of that script. And the address of a spending
condition is that of its locking script. -/
theorem address_one_to_one (N : Network) :
    (∀ locking : Bytes, (addressOfLocking? locking N).isSome ↔ ∃ octets : Bytes,
        (octets.length = 20 ∧ locking = 0x00 :: 0x14 :: octets) ∨
          (octets.length = 32 ∧ locking = 0x00 :: 0x20 :: octets)) ∧
      (∀ (locking : Bytes) (address : Text) (M : Network),
        addressOfLocking? locking N = some address → lockingOfAddress? address M =
          if N = M ∨ (N = .testnet ∧ M = .signet) ∨ (N = .signet ∧ M = .testnet) then
            some locking
          else
            none) ∧
      (∀ (address : Text) (locking : Bytes), lockingOfAddress? address N = some locking →
        addressOfLocking? locking N = some (address.map Text.lower)) ∧
      ∀ condition : SpendingCondition,
        addressOfLocking? condition.locking N = some (condition.address N) := by
  refine ⟨?_, ?_, ?_, ?_⟩
  · intro locking
    have hpush : ∀ {n : Nat} {octets : Bytes}, octets.length = n →
        lockingOfProgram octets = 0x00 :: UInt8.ofNat n :: octets := by
      rintro _ _ rfl
      rfl
    rw [addressOfLocking?, Option.isSome_map, Option.isSome_iff_exists]
    refine exists_congr fun octets => ?_
    rw [programOfLocking?_eq_some_iff]
    constructor
    · rintro ⟨rfl, h | h⟩
      · exact .inl ⟨h, hpush h⟩
      · exact .inr ⟨h, hpush h⟩
    · rintro (⟨h, rfl⟩ | ⟨h, rfl⟩)
      · exact ⟨(hpush h).symm, .inl h⟩
      · exact ⟨(hpush h).symm, .inr h⟩
  · intro locking address M h
    obtain ⟨program, hsize, rfl, rfl⟩ := addressOfLocking?_eq_some_iff.1 h
    rw [lockingOfAddress?, decode?_encode_network hsize, apply_ite (Option.map lockingOfProgram)]
    exact if_congr Network.hrp_eq_iff rfl rfl
  · intro address locking h
    obtain ⟨program, hread, rfl⟩ := Option.map_eq_some_iff.1 h
    obtain ⟨-, hlower, hsize⟩ := (decode?_eq_some_iff N.hrp_ne_nil).1 hread
    exact addressOfLocking?_eq_some_iff.2 ⟨program, hsize, rfl, hlower⟩
  · intro condition
    exact addressOfLocking?_eq_some_iff.2 ⟨condition.program, condition.length_program, rfl, rfl⟩

/-- The address for the hash of a single key is read back to its script on the mainnet but
not on the regtest, whose human-readable part only starts alike; written in upper case it
is the address of the same script. -/
theorem address_one_to_one_mainnet :
    let locking : Bytes := [0x00, 0x14, 0x75, 0x1e, 0x76, 0xe8, 0x19, 0x91, 0x96, 0xd4, 0x54, 0x94,
      0x1c, 0x45, 0xd1, 0xb3, 0xa3, 0x23, 0xf1, 0x43, 0x3b, 0xd6]
    let address := Text.ofString "bc1qw508d6qejxtdg4y5r3zarvary0c5xw7kv8f3t4"
    let shouted := Text.ofString "BC1QW508D6QEJXTDG4Y5R3ZARVARY0C5XW7KV8F3T4"
    addressOfLocking? locking .mainnet = some address ∧
      lockingOfAddress? address .mainnet = some locking ∧
      lockingOfAddress? address .regtest = none ∧
      lockingOfAddress? shouted .mainnet = some locking ∧
      addressOfLocking? locking .mainnet = some (shouted.map Text.lower) := by
  intro locking address shouted
  obtain ⟨-, hback, hform, -⟩ := address_one_to_one .mainnet
  have haddress : addressOfLocking? locking .mainnet = some address := by decide +kernel
  have hshouted : lockingOfAddress? shouted .mainnet = some locking := by decide +kernel
  exact ⟨haddress, hback locking address .mainnet haddress, hback locking address .regtest haddress,
    hshouted, hform shouted locking hshouted⟩

end WitnessSigning
