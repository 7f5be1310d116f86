import Sep2Client.Hash.History

/-!
# The device registry

`der.c` keeps every `DerDevice` in the process-wide table `device_hash` that
`global_hash (device, int64, 64)` declares: a `new_int64_hash (64, device_key)` table whose data are
pointers to device records and whose key is the record's `sfdi`.  `get_device` looks the SFDI up
and, on a miss, allocates a zeroed record, sets its SFDI and inserts it; `device_settings` and
`_device_cert` reach the registry only through `get_device`.

The registry is meant to hold one record per SFDI.  It does not: the 52nd distinct SFDI reaches
`items == max` of the 64-slot table, the growth writes the new record over the last one re-inserted,
and a later `get_device` of a lost SFDI allocates a second record for it
(`get_device_duplicates_sfdi`).
-/

namespace Sep2Client

/-- The fields of a `DerDevice` that the registry functions write. -/
structure DerDevice where
  sfdi : UInt64
  lfdi : List UInt8
deriving Repr, DecidableEq

/-- The registry: the records `type_alloc` has returned, by address, and `device_hash`, whose data
are addresses. -/
structure Registry where
  devices : List DerDevice
  hash : HashTable Nat

/-- `device_key` over the records allocated so far: the SFDI of the record at an address. -/
def devicePolicy (devices : List DerDevice) : HashPolicy Nat UInt64 :=
  int64Policy fun d => (devices.getD d ⟨0, []⟩).sfdi

/-- `device_init ()`: `device_hash = new_int64_hash (64, device_key)`, with no record yet. -/
def deviceInit : Registry := ⟨[], hashNew 64⟩

/-- `get_device (sfdi)`: the address of the record found, or of a new zeroed record with that
SFDI after `insert_device`. -/
def getDevice (r : Registry) (sfdi : UInt64) : Except Fault (Nat × Registry) := do
  let (found, hash) ← hashGet (devicePolicy r.devices) r.hash sfdi
  match found with
  | some d => pure (d, { r with hash })
  | none =>
    let d := r.devices.length
    let devices := r.devices ++ [⟨sfdi, List.replicate 20 0⟩]
    let hash ← hashPut (devicePolicy devices) hash d
    pure (d, ⟨devices, hash⟩)

/-- `_device_cert`: `get_device` of the SFDI the certificate gives, then copy its LFDI in. -/
def deviceCert (r : Registry) (sfdi : UInt64) (lfdi : List UInt8) : Except Fault Registry := do
  let (d, r) ← getDevice r sfdi
  pure { r with devices := r.devices.modify (fun dev => { dev with lfdi }) d }

/-- A sequence of `get_device` calls and the addresses they return. -/
def getDevices (r : Registry) : List UInt64 → Except Fault (List Nat × Registry)
  | [] => pure ([], r)
  | s :: ss => do
    let (d, r) ← getDevice r s
    let (ds, r) ← getDevices r ss
    pure (d :: ds, r)

set_option maxRecDepth 8000 in
/-- SFDIs `1, …, 52` each get a new record, at addresses `0, …, 51`; the 52nd triggers the growth,
after which SFDI `6` is no longer found and a second record, at address `52`, is made for it. -/
theorem get_device_duplicates_sfdi :
    ((getDevices deviceInit ((List.range 52).map (fun i => (i + 1 : Nat).toUInt64) ++ [6])).map
      Prod.fst).toOption = some (List.range 52 ++ [52]) := by
  decide

end Sep2Client
