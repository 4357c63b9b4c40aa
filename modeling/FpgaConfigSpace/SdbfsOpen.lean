import FpgaConfigSpace.SdbfsScan

/-! # The callers of the scanner

    `sdbfs_open_name` and `sdbfs_open_id` of `glue.c` and `do_list` of `sdb-read.c`:
    loops that call `sdbfs_scan` until it returns `NULL`.  Every loop takes a
    budget of calls; `running` is the outcome of a loop that spent its budget. -/

namespace SdbfsOpen

open BigEndian SdbRecord SdbfsDevice SdbfsScan

variable {w : Nat} {σ : Type}

/-- What is known of a loop after a number of calls. -/
inductive Outcome (α : Type) where
  | undefined
  | running
  | done (a : α)

/-- "No such file or directory". -/
def ENOENT : Int := 2

/-- A C string: the bytes before its terminator. -/
structure CString where
  chars : List Byte
  noNul : (0 : Byte) ∉ chars

/-- `__open`: the record last returned becomes the open file. -/
def openCurrent (fs : Sdbfs w σ) (rec : Record) : Sdbfs w σ :=
  { fs with
    fOffset := fs.base fs.depth + (addrFirst rec).setWidth w
    fLen := (addrLast rec + 1 - addrFirst rec).setWidth w
    readOffset := 0 }

/-- The tests of `sdbfs_open_name` on a record. -/
def nameMatches (name : CString) (d : Record) : Bool :=
  (productName d).take name.chars.length == name.chars &&
    (19 ≤ name.chars.length || (productName d).getD name.chars.length 0 == 0x20)

/-- The 32-bit value the host loads from an offset of a record. -/
def load32 (host : Host w) (d : Record) (k : Fin 64) : Word :=
  if host.littleEndian then le32 d k else be32 d k

/-- The 64-bit value the host loads from an offset of a record. -/
def load64 (host : Host w) (d : Record) (k : Fin 64) : BitVec 64 :=
  if host.littleEndian then le64 d k else be64 d k

/-- The tests of `sdbfs_open_id` on a record; the caller has converted the ids. -/
def idMatches (host : Host w) (vid : BitVec 64) (did : BitVec 32) (d : Record) : Bool :=
  load64 host d vendorOffset == vid && load32 host d deviceOffset == did

/-- The loop of the open functions, from the state the new scan left. -/
def openLoop (host : Host w) (found : Record → Bool) :
    Nat → Sdbfs w σ → Outcome (Sdbfs w σ × Int)
  | 0, _ => .running
  | n + 1, fs =>
      match sdbfsScan host fs false with
      | none => .undefined
      | some (fs, d) =>
          if d.isNull then .done (fs, -ENOENT)
          else
            match fs.deref host d with
            | none => .undefined
            | some dev =>
                if found dev then .done (openCurrent { fs with currentp := d } dev, 0)
                else openLoop host found n fs

/-- A new scan, whose result is ignored, and the loop. -/
def openScan (host : Host w) (found : Record → Bool) (n : Nat) (fs : Sdbfs w σ) :
    Outcome (Sdbfs w σ × Int) :=
  match sdbfsScan host fs true with
  | none => .undefined
  | some (fs, _) => openLoop host found n fs

/-- `sdbfs_open_name`. -/
def sdbfsOpenName (host : Host w) (n : Nat) (fs : Sdbfs w σ) (name : CString) :
    Outcome (Sdbfs w σ × Int) :=
  if 19 < name.chars.length then .done (fs, -ENOENT)
  else openScan host (nameMatches name) n fs

/-- `sdbfs_open_id`. -/
def sdbfsOpenId (host : Host w) (n : Nat) (fs : Sdbfs w σ) (vid : BitVec 64) (did : BitVec 32) :
    Outcome (Sdbfs w σ × Int) :=
  openScan host (idMatches host vid did) n fs

/-- What `list_device` returns: an unknown record type without bit 7 is an error. -/
def listDevice (d : Record) : Int :=
  if recordType d = sdbTypeInterconnect ∨ recordType d = sdbTypeDevice
      ∨ recordType d = sdbTypeBridge ∨ recordType d = sdbTypeIntegration
      ∨ recordType d = sdbTypeRepoUrl ∨ recordType d = sdbTypeSynthesis
      ∨ recordType d = sdbTypeEmpty then 0
  else if recordType d &&& 0x80 != 0 then 0
  else -1

/-- `do_list`, from the value of `new` and the errors counted so far. -/
def doList (host : Host w) : Nat → Sdbfs w σ → Bool → Int → Outcome (Sdbfs w σ × Int)
  | 0, _, _, _ => .running
  | n + 1, fs, new, err =>
      match sdbfsScan host fs new with
      | none => .undefined
      | some (fs, d) =>
          if d.isNull then .done (fs, err)
          else
            match fs.deref host d with
            | none => .undefined
            | some dev => doList host n fs false (err + listDevice dev)

end SdbfsOpen
