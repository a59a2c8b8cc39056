import WitnessSigning.Octets

/-!
# Secrets with one owner

A secret is held under one name at a time. Moving it to another name leaves nothing behind,
and replaces what the other name held.
-/

namespace WitnessSigning

/-- **Secrets by name**, in the order in which the names came up. -/
structure SecretStore where
  entries : List (String × Bytes)

namespace SecretStore

/-- No names. -/
def empty : SecretStore where
  entries := []

/-- The secret under a name. -/
def get? (store : SecretStore) (name : String) : Option Bytes :=
  store.entries.lookup name

/-- **Holds a secret** under a name, in place of the one before. -/
def hold (store : SecretStore) (name : String) (secret : Bytes) : SecretStore where
  entries :=
    if store.entries.any fun entry => entry.1 == name then
      store.entries.map fun entry => if entry.1 == name then (name, secret) else entry
    else
      store.entries ++ [(name, secret)]

/-- **Moves a secret** to a name that starts anew. Moved to its own name, it stays. -/
def moveNew (store : SecretStore) (target source : String) : SecretStore :=
  match store.get? source with
  | some secret => (store.hold source []).hold target secret
  | none => store

/-- **Moves a secret** to a name in use. Moved to its own name, nothing happens. -/
def moveInto (store : SecretStore) (target source : String) : SecretStore :=
  if target = source then store else store.moveNew target source

end SecretStore

end WitnessSigning
