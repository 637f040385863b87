/-
# What the local file system is for

Files are arrays of bytes under names, and up to `Nlfl` of them are open, each with a position.
`Files` is this view, without a disk, blocks or buffers; `Files.call` says what every operation
returns and what it does, on a disk that never is full.  `Files.Fits` says which files a disk can
hold.
-/
import Xinu.Lfs
import Xinu.LfsBytes

namespace Xinu

open BlockedArray

/-! ## 1. Files -/

/-- The files, and for every pseudo-device the file that is open on it with its position. -/
structure Files where
  dev : Fin Nlfl → Int
  names : Finset Str
  content : Str → List UInt8
  opened : Fin Nlfl → Option (Str × Nat)

namespace Files

/-- The position of an open file. -/
def seekTo (F : Files) (d : Fin Nlfl) (n : Str) (pos : Nat) : Files :=
  { F with opened := Function.update F.opened d (some (n, pos)) }

/-- The content of a file. -/
def setContent (F : Files) (n : Str) (file : List UInt8) : Files :=
  { F with content := Function.update F.content n file }

/-! ## 2. The operations -/

/-- Open a file that is not open yet, at its start.  `n` asks for a new file and `o` for an old
one; there are `LF_NUM_DIR_ENT` files at most. -/
def openFile (F : Files) (name : Str) (mbits : Nat) : Int × Files :=
  if ∃ d, (F.opened d).map Prod.fst = some name then (SYSERR, F)
  else match (List.finRange Nlfl).find? fun d => (F.opened d).isNone with
  | none => (SYSERR, F)
  | some d =>
    if name ∈ F.names then
      if mbits &&& LF_MODE_N ≠ 0 then (SYSERR, F) else (F.dev d, F.seekTo d name 0)
    else if mbits &&& LF_MODE_O ≠ 0 ∨ LF_NUM_DIR_ENT ≤ F.names.card then (SYSERR, F)
    else (F.dev d, { F with names := insert name F.names }.seekTo d name 0)

def close (F : Files) (d : Fin Nlfl) : Int × Files :=
  match F.opened d with
  | none => (SYSERR, F)
  | some _ => (OK, { F with opened := Function.update F.opened d none })

/-- Read at most `count` bytes from the position on. -/
def read (F : Files) (d : Fin Nlfl) (count : Nat) : Int × List UInt8 × Files :=
  match F.opened d with
  | none => (SYSERR, [], F)
  | some (n, pos) =>
    let bytes := ((F.content n).drop pos).take count
    (if bytes = [] then EOF else bytes.length, bytes, F.seekTo d n (pos + bytes.length))

/-- Write the bytes from the position on. -/
def write (F : Files) (d : Fin Nlfl) (bytes : List UInt8) : Bool × Files :=
  match F.opened d with
  | none => (false, F)
  | some (n, pos) =>
    (true, (F.setContent n (overwrite (F.content n) pos bytes)).seekTo d n (pos + bytes.length))

/-- Go to a position of the file. -/
def seek (F : Files) (d : Fin Nlfl) (offset : Nat) : Int × Files :=
  match F.opened d with
  | none => (SYSERR, F)
  | some (n, _) => if offset > (F.content n).length then (SYSERR, F) else (OK, F.seekTo d n offset)

/-- Empty the file. -/
def truncate (F : Files) (d : Fin Nlfl) : Int × Files :=
  match F.opened d with
  | none => (SYSERR, F)
  | some (n, _) => (OK, (F.setContent n []).seekTo d n 0)

/-- What an operation returns, the data it yields, and the files after it. -/
def call (F : Files) : LfsOp → Int × List UInt8 × Files
  | .open name mode =>
    if name.1.length ≥ LF_NAME_LEN then (SYSERR, [], F)
    else match lfgetmode mode with
    | none => (SYSERR, [], F)
    | some mbits => ((F.openFile name mbits).1, [], (F.openFile name mbits).2)
  | .close d => ((F.close d).1, [], (F.close d).2)
  | .getc d =>
    match F.opened d with
    | none => (SYSERR, [], F)
    | some (n, pos) =>
      match (F.content n)[pos]? with
      | none => (EOF, [], F)
      | some b => (b.toNat, [b], F.seekTo d n (pos + 1))
  | .putc d ch => (if (F.write d [ch]).1 then OK else SYSERR, [], (F.write d [ch]).2)
  | .read d count =>
    if count < 0 then (SYSERR, [], F)
    else if count = 0 then (0, [], F)
    else F.read d count.toNat
  | .write d buff count =>
    if count < 0 then (SYSERR, [], F)
    else if buff.take count.toNat = [] then (count, [], F)
    else
      let r := F.write d (buff.take count.toNat)
      (if r.1 then count else SYSERR, [], r.2)
  | .seek d offset => ((F.seek d offset).1, [], (F.seek d offset).2)
  | .control d func =>
    if func = LF_CTL_TRUNC then ((F.truncate d).1, [], (F.truncate d).2) else (SYSERR, [], F)

/-- The results of a sequence of operations, and the files after it. -/
def calls (F : Files) : List LfsOp → List (Int × List UInt8) × Files
  | [] => ([], F)
  | op :: ops =>
    let r := F.call op
    let rest := r.2.2.calls ops
    ((r.1, r.2.1) :: rest.1, rest.2)

/-! ## 3. What a disk can hold -/

/-- The files find room on a disk: every file takes whole blocks. -/
def Fits (A : Area) (F : Files) : Prop :=
  ∑ n ∈ F.names, niblocks (F.content n).length ≤ A.iblocks ∧
    ∑ n ∈ F.names, nblocks (F.content n).length ≤ A.total - A.first

instance (A : Area) (F : Files) : Decidable (F.Fits A) := inferInstanceAs (Decidable (_ ∧ _))

/-- The files find room after every one of the operations. -/
def FitsAll (A : Area) (F : Files) : List LfsOp → Prop
  | [] => True
  | op :: ops => (F.call op).2.2.Fits A ∧ (F.call op).2.2.FitsAll A ops

instance FitsAll.decidable (A : Area) : ∀ (F : Files) (ops : List LfsOp),
    Decidable (F.FitsAll A ops)
  | _, [] => instDecidableTrue
  | F, op :: ops =>
    have := FitsAll.decidable A (F.call op).2.2 ops
    inferInstanceAs (Decidable (_ ∧ _))

end Files

end Xinu
