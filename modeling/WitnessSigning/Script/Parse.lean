import WitnessSigning.Script.Redeem
import WitnessSigning.Wire.Reader

/-!
# Reading redeem scripts

Reading follows the layout from its first octet to its last and names the first place where it
breaks. How many octets are left is asked before any are read, so no read ever runs out of data. A
script with too many keys is reported as such before what follows its keys is looked at; the
conditions on keys and threshold come last.
-/

namespace WitnessSigning.RedeemScript

/-- Fails for a break in the layout. -/
def breakAt {α : Type} (fault : LayoutFault) : Wire.Reader α :=
  Wire.Reader.fail (.layout fault)

/-- Reads one key behind the operation that pushes it. -/
def readKey : Wire.Reader PublicKey := do
  let _ ← Wire.Reader.u8
  let rest ← Wire.Reader.unread
  if (rest.take 33).length < 33 then
    breakAt .truncatedKey
  else
    match PublicKey.ofBytes (← Wire.Reader.take 33) with
    | .ok key => return key
    | .error fault => breakAt (.key fault)

/-- Reads keys as long as another one is pushed, behind those already read, which come latest first.
As many rounds as there are octets are always enough. -/
def readKeys : Nat → List PublicKey → Wire.Cursor → Except Error (List PublicKey) × Wire.Cursor
  | 0, done, c => (.ok done.reverse, c)
  | rounds + 1, done, c =>
    if c.unread.head? = some Opcode.pushKey then
      match readKey c with
      | (.ok key, c) => readKeys rounds (key :: done) c
      | (.error e, c) => (.error e, c)
    else
      (.ok done.reverse, c)

/-- Reads what follows the keys. -/
def readTail (keys : List PublicKey) : Wire.Reader Unit := do
  let rest ← Wire.Reader.unread
  if rest.length ≠ 2 then breakAt .surplus
  else
    let count ← Wire.Reader.u8
    if keys.isEmpty || count != Opcode.small keys.length then breakAt .countOpcode
    else
      let check ← Wire.Reader.u8
      if check != Opcode.checkMultisig then breakAt .missingCheck else return ()

/-- Reads a redeem script from its first octet. -/
def read : Wire.Reader RedeemScript := do
  let script ← Wire.Reader.unread
  if script.length < 3 then breakAt .tooShort
  else
    match Opcode.small? (← Wire.Reader.u8) with
    | none => breakAt .thresholdOpcode
    | some threshold =>
      let keys ← readKeys script.length []
      let _ ← if keys.length ≤ maxKeys then readTail keys else pure ()
      match build keys threshold with
      | .ok script => return script
      | .error e => Wire.Reader.fail e

/-- **Reads a redeem script** from all its octets. -/
def parse (script : Bytes) : Except Error RedeemScript :=
  (read (Wire.Cursor.start script)).1

/-- Reads a redeem script from hexadecimal. -/
def ofHex (text : Text) : Except Error RedeemScript := do
  parse (← Hex.decode text)

end WitnessSigning.RedeemScript
