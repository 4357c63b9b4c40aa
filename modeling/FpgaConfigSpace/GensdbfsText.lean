import Mathlib.Data.List.TakeWhile
import FpgaConfigSpace.Gensdbfs

/-! # The text of a configuration file

    `scan_config` reads the file with `fgets`, into a buffer of 256 bytes, and keeps a
    pointer to the entry whose name it read last; `parse_config_line` tries one `sscanf`
    after the other.  A file without lines that are too long for the buffer is read line by
    line, and what comes of it is what `scanConfig` makes of the names and the directives
    below them. -/

namespace GensdbfsText

open BigEndian SdbRecord SdbFields SdbfsOpen Gensdbfs

/-! ## `sscanf` -/

/-- `isspace`, of the C locale. -/
def isspace (c : Byte) : Bool := c == 0x20 || (decide (0x09 ≤ c) && decide (c ≤ 0x0d))

/-- `isblank`, of the C locale: a space or a tab. -/
def isblank (c : Byte) : Bool := c == 0x20 || c == 0x09

/-- The value of a digit, of base 16 at most. -/
def digitValue (c : Byte) : Option Nat :=
  if 0x30 ≤ c ∧ c ≤ 0x39 then some (c.toNat - 0x30)
  else if 0x61 ≤ c ∧ c ≤ 0x66 then some (c.toNat - 0x57)
  else if 0x41 ≤ c ∧ c ≤ 0x46 then some (c.toNat - 0x37)
  else none

/-- The digits of a base that a text begins with. -/
def digits (base : Nat) : List Byte → List Nat
  | [] => []
  | c :: t =>
      match digitValue c with
      | some d => if d < base then d :: digits base t else []
      | none => []

/-- A number of a base; there has to be a digit. -/
def scanNumber (base : Nat) (t : List Byte) : Option Nat :=
  if digits base t = [] then none else some ((digits base t).foldl (fun n d => n * base + d) 0)

/-- What follows "0x". -/
def afterHexPrefix : List Byte → Option (List Byte)
  | c :: x :: t => if c = 0x30 ∧ (x = 0x78 ∨ x = 0x58) then some t else none
  | _ => none

/-- `%u`, without the sign. -/
def scanDecimal (t : List Byte) : Option Nat := scanNumber 10 t

/-- `%x`, without the sign: "0x" may stand in front. -/
def scanHex (t : List Byte) : Option Nat := scanNumber 16 ((afterHexPrefix t).getD t)

/-- `%i`, without the sign: what the number begins with says which base it has. -/
def scanAny (t : List Byte) : Option Nat :=
  match afterHexPrefix t with
  | some t => scanNumber 16 t
  | none => if t.head? = some 0x30 then scanNumber 8 t else scanNumber 10 t

/-- The sign of a number. -/
def scanSigned (scan : List Byte → Option Nat) : List Byte → Option Int
  | [] => none
  | c :: t =>
      if c = 0x2d then (scan t).map fun n => -(n : Int)
      else if c = 0x2b then (scan t).map fun n => (n : Int)
      else (scan (c :: t)).map fun n => (n : Int)

/-- The value of an `unsigned long` conversion, of which too large a number is the largest. -/
def toULong (n : Int) : ULong :=
  if 0xffffffffffffffff < n.natAbs then BitVec.allOnes 64 else BitVec.ofInt 64 n

/-- The value of a `long` conversion. -/
def toLong (n : Int) : Int := max (-0x8000000000000000) (min n 0x7fffffffffffffff)

/-- What is left behind a word, if the text begins with it. -/
def afterWord : List Byte → List Byte → Option (List Byte)
  | [], t => some t
  | _ :: _, [] => none
  | c :: word, d :: t => if c = d then afterWord word t else none

/-- `sscanf(t, "<word> = %<conversion>", ...)`. -/
def sscanf (word : String) (scan : List Byte → Option Nat) (t : List Byte) : Option Int :=
  (afterWord (word.toList.map fun c => BitVec.ofNat 8 c.toNat) t).bind fun t =>
    match t.dropWhile isspace with
    | [] => none
    | c :: t => if c = 0x3d then scanSigned scan (t.dropWhile isspace) else none

/-- `parse_config_line`, up to what it does with the entry. -/
def parseConfigLine (t : List Byte) : Directive :=
  match sscanf "vendor" scanDecimal t with
  | some n =>
      let int64 := toULong n
      .vendor (if int64 = 0 then ((sscanf "vendor" scanHex t).map toULong).getD 0 else int64)
  | none =>
  match sscanf "device" scanDecimal t with
  | some n =>
      let int32 := toULong n
      .device ((if int32 = 0 then ((sscanf "device" scanHex t).map toULong).getD 0
        else int32).setWidth 32)
  | none =>
  match sscanf "write" scanAny t with
  | some n => .write (BitVec.ofInt 32 (toLong n) != 0)
  | none =>
  match sscanf "maxsize" scanAny t with
  | some n => .maxsize (BitVec.ofInt 64 (toLong n))
  | none =>
  match sscanf "position" scanAny t with
  | some n => .position (BitVec.ofInt 64 (toLong n))
  | none => .unknown

/-! ## Lines -/

/-- `fgets`, with room for a number of characters: what is read, and what is left. -/
def fgets : (room : Nat) → List Byte → List Byte × List Byte
  | 0, text => ([], text)
  | _ + 1, [] => ([], [])
  | room + 1, c :: text =>
      if c = 0x0a then ([c], text) else (c :: (fgets room text).1, (fgets room text).2)

/-- What `fgets` returns, one call after the other; `fuel` bounds the calls. -/
def fgetsLines (room : Nat) : (fuel : Nat) → List Byte → List (List Byte)
  | 0, _ => []
  | _ + 1, [] => []
  | fuel + 1, c :: text =>
      (fgets room (c :: text)).1 :: fgetsLines room fuel (fgets room (c :: text)).2

/-- A string is its characters. -/
theorem chars_inj {s t : CString} (h : s.chars = t.chars) : s = t := by
  cases s
  cases t
  cases h
  rfl

/-- The string of a line, without white space at its end. -/
def trimLine (line : List Byte) : CString where
  chars := ((line.takeWhile (· ≠ 0)).reverse.dropWhile isspace).reverse
  noNul := by
    intro h
    have hmem := (List.dropWhile_sublist isspace).subset (List.mem_reverse.mp h)
    have hne := List.mem_takeWhile_imp (List.mem_reverse.mp hmem)
    exact of_decide_eq_true hne rfl

/-- What `scan_config` takes a line for. -/
inductive ConfigLine where
  /-- Empty, or a comment. -/
  | skipped
  /-- It starts in column 0: the name of a file. -/
  | name (name : CString)
  | directive (t : List Byte)

/-- What a line is taken for, without the white space at its end. -/
def configLine (line : List Byte) : ConfigLine :=
  let s := trimLine line
  let t := s.chars.dropWhile isblank
  if t.head? = some 0x23 ∨ t = [] then .skipped
  else if t.length = s.chars.length then .name s
  else .directive t

/-- The lines of a file as `scan_config` reads them, with a buffer of 256 bytes. -/
def configLines (text : List Byte) : List ConfigLine :=
  (fgetsLines 255 text.length text).map configLine

/-! ## `scan_config` -/

/-- The entries of a directory themselves. -/
def sdbfs : Entries → List Sdbf
  | .nil => []
  | .file f _ rest => f :: sdbfs rest
  | .subdir f _ _ rest => f :: sdbfs rest

/-- `tree[0]`, `tree[1]` and so on. -/
def treeSdbfs (tree : Tree) : List Sdbf := tree.dot :: sdbfs tree.entries

/-- `find_filename`. -/
def findFilename (tree : Tree) (s : CString) : Option Nat :=
  ((treeSdbfs tree).take (records tree.dot)).findIdx? fun f => s.chars == f.basename.chars

/-- Change the entry at an index. -/
def changeAt (change : Sdbf → Sdbf) : Nat → Entries → Entries
  | _, .nil => .nil
  | 0, .file f file rest => .file (change f) file rest
  | 0, .subdir f dot sub rest => .subdir (change f) dot sub rest
  | k + 1, .file f file rest => .file f file (changeAt change k rest)
  | k + 1, .subdir f dot sub rest => .subdir f dot sub (changeAt change k rest)

/-- Change the entry at an index of `tree[]`; "." is the first. -/
def changeTree (change : Sdbf → Sdbf) (tree : Tree) : Nat → Tree
  | 0 => { tree with dot := change tree.dot }
  | k + 1 => { tree with entries := changeAt change k tree.entries }

/-- One round of the loop: the tree, and what `current` points to. -/
def scanLine (level : Nat) (s : Tree × Option Nat) : ConfigLine → Tree × Option Nat
  | .skipped => s
  | .name name => (s.1, findFilename s.1 name)
  | .directive t =>
      match s.2 with
      | none => s
      | some i => (changeTree (fun f => applyDirective level f (parseConfigLine t)) s.1 i, s.2)

/-- `scan_config`, from the text of the file. -/
def scanConfigText (level : Nat) (text : List Byte) (tree : Tree) : Tree :=
  ((configLines text).foldl (scanLine level) (tree, none)).1

/-! ## The names and the directives below them -/

/-- The directives up to the next name. -/
def directivesBelow : List ConfigLine → List Directive
  | [] => []
  | .skipped :: lines => directivesBelow lines
  | .name _ :: _ => []
  | .directive t :: lines => parseConfigLine t :: directivesBelow lines

/-- The parts of the file below each name. -/
def configOf : List ConfigLine → Config
  | [] => []
  | .skipped :: lines => configOf lines
  | .name name :: lines => (name, directivesBelow lines) :: configOf lines
  | .directive _ :: lines => configOf lines

/-- Two changes of one entry are one. -/
theorem changeAt_changeAt (g h : Sdbf → Sdbf) (e : Entries) : ∀ k : Nat,
    changeAt h k (changeAt g k e) = changeAt (fun f => h (g f)) k e := by
  induction e with
  | nil => exact fun k => by cases k <;> rfl
  | file f file rest ih =>
      intro k
      cases k with
      | zero => rfl
      | succ k => exact congrArg (Entries.file f file) (ih k)
  | subdir f dot sub rest _ ih =>
      intro k
      cases k with
      | zero => rfl
      | succ k => exact congrArg (Entries.subdir f dot sub) (ih k)

/-- So they are in a tree. -/
theorem changeTree_changeTree (g h : Sdbf → Sdbf) (tree : Tree) (k : Nat) :
    changeTree h (changeTree g tree k) k = changeTree (fun f => h (g f)) tree k := by
  cases k with
  | zero => rfl
  | succ k => exact congrArg (Tree.mk tree.dot) (changeAt_changeAt g h tree.entries k)

/-- Changing nothing. -/
theorem changeAt_id (e : Entries) : ∀ k : Nat, changeAt (fun f => f) k e = e := by
  induction e with
  | nil => exact fun k => by cases k <;> rfl
  | file f file rest ih =>
      intro k
      cases k with
      | zero => rfl
      | succ k => exact congrArg (Entries.file f file) (ih k)
  | subdir f dot sub rest _ ih =>
      intro k
      cases k with
      | zero => rfl
      | succ k => exact congrArg (Entries.subdir f dot sub) (ih k)

theorem changeTree_id (tree : Tree) (k : Nat) : changeTree (fun f => f) tree k = tree := by
  cases k with
  | zero => rfl
  | succ k => exact congrArg (Tree.mk tree.dot) (changeAt_id tree.entries k)

/-- What `updateFirst` changes is what is found first. -/
theorem updateFirst_eq (name : CString) (change : Sdbf → Sdbf) (e : Entries) : ∀ left : Nat,
    updateFirst name change left e =
      match ((sdbfs e).take left).findIdx? (fun f => name.chars == f.basename.chars) with
      | none => e
      | some k => changeAt change k e := by
  induction e with
  | nil =>
      intro left
      cases left <;> rfl
  | file f file rest ih =>
      intro left
      cases left with
      | zero => rfl
      | succ left =>
          rw [updateFirst, sdbfs, List.take_succ_cons, List.findIdx?_cons]
          by_cases hname : name.chars = f.basename.chars
          · rw [if_pos hname, if_pos (beq_iff_eq.mpr hname)]
            rfl
          · rw [if_neg hname, if_neg (mt beq_iff_eq.mp hname), ih]
            cases ((sdbfs rest).take left).findIdx? fun f => name.chars == f.basename.chars <;> rfl
  | subdir f dot sub rest _ ih =>
      intro left
      cases left with
      | zero => rfl
      | succ left =>
          rw [updateFirst, sdbfs, List.take_succ_cons, List.findIdx?_cons]
          by_cases hname : name.chars = f.basename.chars
          · rw [if_pos hname, if_pos (beq_iff_eq.mpr hname)]
            rfl
          · rw [if_neg hname, if_neg (mt beq_iff_eq.mp hname), ih]
            cases ((sdbfs rest).take left).findIdx? fun f => name.chars == f.basename.chars <;> rfl

/-- The directives below a name change the entry that `find_filename` finds. -/
theorem configure_eq (level : Nat) (tree : Tree) (part : CString × List Directive) :
    configure level tree part =
      match findFilename tree part.1 with
      | none => tree
      | some k => changeTree (fun f => part.2.foldl (applyDirective level) f) tree k := by
  rw [configure, findFilename, treeSdbfs]
  cases hn : records tree.dot with
  | zero => rfl
  | succ n =>
      simp only [Nat.succ_ne_zero, if_false, Nat.add_sub_cancel, List.take_succ_cons,
        List.findIdx?_cons, updateFirst_eq]
      by_cases hname : part.1.chars = tree.dot.basename.chars
      · simp only [if_pos hname, beq_iff_eq.mpr hname, if_true]
        rfl
      · have hne : (part.1.chars == tree.dot.basename.chars) = false := by simp [hname]
        simp only [if_neg hname, hne, Bool.false_eq_true, if_false]
        cases ((sdbfs tree.entries).take n).findIdx? fun f => part.1.chars == f.basename.chars <;>
          rfl

/-- Names that stay are found where they were. -/
theorem findFilename_same {tree tree' : Tree} (hdot : records tree'.dot = records tree.dot)
    (hnames : (treeSdbfs tree').map Sdbf.basename = (treeSdbfs tree).map Sdbf.basename) :
    findFilename tree' = findFilename tree := by
  have hfind : ∀ (l : List Sdbf) (s : CString), l.findIdx? (fun f => s.chars == f.basename.chars) =
      (l.map Sdbf.basename).findIdx? fun name => s.chars == name.chars := by
    intro l s
    rw [List.findIdx?_map]
    rfl
  funext s
  rw [findFilename, findFilename, hfind, hfind, List.map_take, List.map_take, hnames, hdot]

/-- **Reading the text is configuring by the names and the directives below them.** -/
theorem scanConfigText_eq (level : Nat) (text : List Byte) (tree : Tree) :
    scanConfigText level text tree = scanConfig level (configOf (configLines text)) tree := by
  have hrun : ∀ (lines : List ConfigLine) (tree : Tree) (current : Option Nat),
      (lines.foldl (scanLine level) (tree, current)).1 =
        (configOf lines).foldl (configure level)
          (match current with
          | none => tree
          | some k =>
              changeTree (fun f => (directivesBelow lines).foldl (applyDirective level) f) tree k) := by
    intro lines
    induction lines with
    | nil =>
        intro tree current
        cases current with
        | none => rfl
        | some k => exact (changeTree_id tree k).symm
    | cons line lines ih =>
        intro tree current
        rw [List.foldl_cons]
        cases line with
        | skipped => exact ih tree current
        | name name =>
            show (lines.foldl (scanLine level) (tree, findFilename tree name)).1 =
              (configOf lines).foldl (configure level) (configure level _ (name, directivesBelow lines))
            have hstay : (match current with
                | none => tree
                | some k => changeTree
                    (fun f => (directivesBelow (.name name :: lines)).foldl (applyDirective level) f)
                    tree k) = tree := by
              cases current with
              | none => rfl
              | some k => exact changeTree_id tree k
            rw [hstay, ih, configure_eq]
        | directive t =>
            cases current with
            | none => exact ih tree none
            | some k =>
                show (lines.foldl (scanLine level)
                  (changeTree (fun f => applyDirective level f (parseConfigLine t)) tree k,
                    some k)).1 = _
                rw [ih]
                show (configOf lines).foldl (configure level) (changeTree _ (changeTree _ tree k) k)
                  = (configOf lines).foldl (configure level) (changeTree _ tree k)
                rw [changeTree_changeTree]
                rfl
  exact hrun (configLines text) tree none

/-- `prepare_dir`, of the directory that the program is given and the text of its
    configuration file. -/
def prepareDirText (blocksize : BitVec 32) (text : List Byte) (dirents : Dirents) : Option Tree :=
  (scanEntries blocksize 0 dirents).map fun e =>
    scanConfigText 0 text ⟨fillDot 0 (e.count + 1), e⟩

/-- **The program sees of the text what the lines say**, and no more. -/
theorem prepareDirText_eq (blocksize : BitVec 32) (text : List Byte) (dirents : Dirents) :
    prepareDirText blocksize text dirents =
      prepareDir blocksize (configOf (configLines text)) dirents := by
  rw [prepareDirText, prepareDir]
  exact Option.map_congr fun e _ => scanConfigText_eq 0 text _

end GensdbfsText
