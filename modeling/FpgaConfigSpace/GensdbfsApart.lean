import FpgaConfigSpace.GensdbfsConfig

/-! # Bytes that are written twice

    What an entry is given starts behind the room of the entry before it, so the
    bytes of two files cannot meet unless one of them leaves its room.  A file stays
    in its room.  A subdirectory is given its last address as if that were a size:
    its contents can pass the room by a byte for every level below it, and when they
    do so at the end of a block, they run into what comes next. -/

namespace GensdbfsApart

open BigEndian SdbRecord SdbfsOpen FileWrites Blocks Gensdbfs GensdbfsLayout GensdbfsConfig

variable (blocksize : BitVec 32)

/-- The bytes of a file that are copied to the image. -/
def stored (file : RegularFile) : Nat := (filePieces blocksize file).flatten.length

/-- The positions of the image that the entries of a directory take up: the bytes of its
    files, and the tables and the entries of its subdirectories. -/
def Occupies : Entries → (pos p : Nat) → Prop
  | .nil, _, _ => False
  | .file f file rest, pos, p =>
      (pos ≤ p ∧ p < pos + stored blocksize file) ∨
        Occupies rest (roundUp blocksize.toNat (pos + f.size.toNat)) p
  | .subdir f _ sub rest, pos, p =>
      (pos ≤ p ∧ p < pos + 64 * (sub.count + 1)) ∨
        Occupies sub (pos + tableEnd blocksize.toNat (sub.count + 1)) p ∨
        Occupies rest (roundUp blocksize.toNat (pos + subSize blocksize.toNat f sub)) p

/-- No subdirectory goes on, behind the room it is given, into a block that a later entry
    of the same directory starts in. -/
def Roomy : Entries → (pos : Nat) → Prop
  | .nil, _ => True
  | .file f _ rest, pos => Roomy rest (roundUp blocksize.toNat (pos + f.size.toNat))
  | .subdir f _ sub rest, pos =>
      let inside := pos + tableEnd blocksize.toNat (sub.count + 1)
      let next := roundUp blocksize.toNat (pos + subSize blocksize.toNat f sub)
      Roomy sub inside ∧ Roomy rest next ∧
        ∀ k, Occupies blocksize sub inside (next + blocksize.toNat * k) →
          ¬ Occupies blocksize rest next (next + blocksize.toNat * k)

/-! ## The bytes of a file and of a table -/

variable {blocksize}

/-- No more is written of a file than it has. -/
theorem copyPieces_length (size : Nat) : ∀ (fuel : Nat) (copied : BitVec 32) (bytes : List Byte),
    (copyPieces blocksize size fuel copied bytes).flatten.length ≤ bytes.length := by
  intro fuel
  induction fuel with
  | zero => exact fun _ bytes => Nat.zero_le bytes.length
  | succ fuel ih =>
      intro copied bytes
      rw [copyPieces]
      split
      · simp only
        split
        · exact Nat.zero_le bytes.length
        · have hrest := ih (copied + BitVec.ofNat 32 (bytes.take blocksize.toNat).length)
            (bytes.drop blocksize.toNat)
          have hsplit := congrArg List.length (List.take_append_drop blocksize.toNat bytes)
          rw [List.length_append] at hsplit
          rw [List.flatten_cons, List.length_append]
          omega
      · exact Nat.zero_le bytes.length

/-- What is stored of a file is at most its size. -/
theorem stored_le (blocksize : BitVec 32) (file : RegularFile) : stored blocksize file ≤ file.size := by
  rw [stored, filePieces]
  cases hc : file.contents with
  | none => exact Nat.zero_le file.size
  | some bytes =>
      rw [← file.sized bytes hc]
      exact copyPieces_length _ _ _ _

theorem recordBytes_length (r : Record) : (recordBytes r).length = 64 := List.length_ofFn

/-- There is a record for every entry. -/
theorem layoutRecords_length (b : Nat) (e : Entries) : ∀ pos : Nat,
    (layoutRecords b e pos).length = e.count := by
  induction e with
  | nil => exact fun _ => rfl
  | file f file rest ih => exact fun _ => congrArg (· + 1) (ih _)
  | subdir f dot sub rest _ ih => exact fun _ => congrArg (· + 1) (ih _)

theorem flatten_recordBytes (rs : List Record) :
    (rs.map recordBytes).flatten.length = 64 * rs.length := by
  induction rs with
  | nil => rfl
  | cons r rs ih =>
      rw [List.map_cons, List.flatten_cons, List.length_append, ih, recordBytes_length,
        List.length_cons]
      omega

/-- The positions of a table. -/
theorem covers_table (b : Nat) (dot : Sdbf) (e : Entries) (start pos p : Nat) :
    Covers (consecutive start ((layoutTable b dot e pos).map recordBytes)) p ↔
      start ≤ p ∧ p < start + 64 * (e.count + 1) := by
  rw [covers_consecutive, flatten_recordBytes, layoutTable, List.length_cons, layoutRecords_length]

section

variable (hb : BlockSize blocksize)

include hb

/-- What is written for the entries of a directory is what they occupy. -/
theorem covers_written {p : Nat} (e : Entries) : ∀ {base pos : Nat}, blocksize.toNat ∣ base →
    blocksize.toNat ∣ pos →
    (Covers (written blocksize e base pos) p ↔ Occupies blocksize e (base + pos) p) := by
  induction e with
  | nil => exact fun _ _ => iff_of_false (covers_nil p) id
  | file f file rest ih =>
      intro base pos hbase hpos
      rw [written, covers_append, covers_consecutive, ih hbase (dvd_roundUp _ _), Occupies, stored,
        Nat.add_assoc base pos f.size.toNat, roundUp_add hb.pos hbase]
  | subdir f dot sub rest ihsub ih =>
      intro base pos hbase hpos
      rw [written, covers_append, covers_append, covers_table, ih hbase (dvd_roundUp _ _),
        ihsub (Nat.dvd_add hbase hpos) (dvd_tableEnd _ _), Occupies,
        Nat.add_assoc base pos (subSize blocksize.toNat f sub), roundUp_add hb.pos hbase]

/-- Entries take up nothing in front of the first one. -/
theorem Occupies.le {e : Entries} : ∀ {pos p : Nat}, Occupies blocksize e pos p → pos ≤ p := by
  induction e with
  | nil => exact fun h => h.elim
  | file f file rest ih =>
      rintro pos p (h | h)
      · exact h.1
      · have hnext := le_roundUp hb.pos (pos + f.size.toNat)
        have hle := ih h
        omega
  | subdir f dot sub rest ihsub ih =>
      rintro pos p (h | h | h)
      · exact h.1
      · have hle := ihsub h
        omega
      · have hnext := le_roundUp hb.pos (pos + subSize blocksize.toNat f sub)
        have hle := ih h
        omega

omit hb in
/-- With a position, the entries take up its block from the start. -/
theorem Occupies.blockStart {e : Entries} : ∀ {pos p : Nat}, blocksize.toNat ∣ pos →
    Occupies blocksize e pos p → Occupies blocksize e pos (p - p % blocksize.toNat) := by
  induction e with
  | nil => exact fun _ h => h
  | file f file rest ih =>
      rintro pos p hpos (h | h)
      · exact Or.inl ⟨le_blockStart hpos h.1, Nat.lt_of_le_of_lt (Nat.sub_le _ _) h.2⟩
      · exact Or.inr (ih (dvd_roundUp _ _) h)
  | subdir f dot sub rest ihsub ih =>
      rintro pos p hpos (h | h | h)
      · exact Or.inl ⟨le_blockStart hpos h.1, Nat.lt_of_le_of_lt (Nat.sub_le _ _) h.2⟩
      · exact Or.inr (Or.inl (ihsub (Nat.dvd_add hpos (dvd_roundUp _ _)) h))
      · exact Or.inr (Or.inr (ih (dvd_roundUp _ _) h))

/-- A file stays in its room. -/
theorem size_le {f : Sdbf} {file : RegularFile} {pos : Nat} (hok : SizeOk blocksize file f.size)
    (hpos : blocksize.toNat ≤ pos) (hfit : pos + file.size ≤ 0x100000000) :
    file.size ≤ f.size.toNat := by
  rcases hok with h | h
  · exact h
  · have hround : roundUp blocksize.toNat file.size ≤ 0x100000000 - blocksize.toNat := by
      refine roundUp_le hb.pos (Nat.dvd_sub hb.dvd (Nat.dvd_refl _)) ?_
      omega
    have hle := le_roundUp hb.pos file.size
    have hblock := hb.pos
    rw [h, sdbAlign_ofNat hb (by omega), BitVec.toNat_ofNat, Nat.mod_eq_of_lt (by omega)]
    exact hle

/-- Two lots of entries meet only if they meet at the start of a block. -/
theorem meet_iff (sub rest : Entries) {inside next : Nat} (hinside : blocksize.toNat ∣ inside)
    (hnext : blocksize.toNat ∣ next) :
    (∀ p, Occupies blocksize sub inside p → ¬ Occupies blocksize rest next p) ↔
      ∀ k, Occupies blocksize sub inside (next + blocksize.toNat * k) →
        ¬ Occupies blocksize rest next (next + blocksize.toNat * k) := by
  constructor
  · intro h k
    exact h _
  · intro h p hsub hrest
    have hle := le_blockStart hnext (hrest.le hb)
    obtain ⟨k, hk⟩ := Nat.dvd_sub (Nat.dvd_sub_mod p) hnext
    have hstart : p - p % blocksize.toNat = next + blocksize.toNat * k := by omega
    refine h k ?_ ?_
    · rw [← hstart]
      exact hsub.blockStart hinside
    · rw [← hstart]
      exact hrest.blockStart hnext

/-- Nothing is written twice for the entries of a directory if and only if its
    subdirectories stay clear of what comes behind them. -/
theorem pairwise_written (e : Entries) : ∀ {base pos : Nat}, Scanned blocksize e →
    Fits blocksize.toNat e (base + pos) → blocksize.toNat ∣ base → blocksize.toNat ∣ pos →
    blocksize.toNat ≤ pos →
    ((written blocksize e base pos).Pairwise Write.Apart ↔ Roomy blocksize e (base + pos)) := by
  induction e with
  | nil => exact fun _ _ _ _ _ => iff_of_true List.Pairwise.nil trivial
  | file f file rest ih =>
      intro base pos hscan hfit hbase hpos hle
      obtain ⟨hfile, hscan⟩ := hscan
      obtain ⟨_, _, hend, hfit⟩ := hfit
      rw [Nat.add_assoc, roundUp_add hb.pos hbase] at hfit
      have hnext := le_roundUp hb.pos (pos + f.size.toNat)
      have hroom := size_le hb hfile.size_ok (Nat.le_trans hle (Nat.le_add_left pos base)) hend
      have hstored := stored_le blocksize file
      have hclear : ∀ p, Covers (consecutive (base + pos) (filePieces blocksize file)) p →
          ¬ Covers (written blocksize rest base (roundUp blocksize.toNat (pos + f.size.toNat))) p := by
        intro p hp hrest
        rw [covers_consecutive, ← stored] at hp
        have hbehind := ((covers_written hb rest hbase (dvd_roundUp _ _)).mp hrest).le hb
        omega
      rw [written, pairwise_append, ih hscan hfit hbase (dvd_roundUp _ _) (by omega), Roomy,
        Nat.add_assoc base pos f.size.toNat, roundUp_add hb.pos hbase]
      exact ⟨fun h => h.2.1, fun h => ⟨pairwise_consecutive _ _, h, hclear⟩⟩
  | subdir f dot sub rest ihsub ih =>
      intro base pos hscan hfit hbase hpos hle
      obtain ⟨_, ⟨hdot, _⟩, hscanSub, hscan⟩ := hscan
      obtain ⟨_, _, hfitSub, hfit⟩ := hfit
      rw [Nat.add_assoc, roundUp_add hb.pos hbase] at hfit
      have hnext := le_roundUp hb.pos (pos + subSize blocksize.toNat f sub)
      have htable := le_tableEnd hb.pos (sub.count + 1)
      have hsize := tableEnd_le_subSize (b := blocksize.toNat) f sub
      have hinside := Nat.dvd_add (Nat.dvd_add hbase hpos)
        (dvd_tableEnd blocksize.toNat (sub.count + 1))
      have hbehind := Nat.dvd_add hbase
        (dvd_roundUp blocksize.toNat (pos + subSize blocksize.toNat f sub))
      have hsub := fun p => covers_written hb (p := p) sub (Nat.dvd_add hbase hpos)
        (dvd_tableEnd blocksize.toNat (sub.count + 1))
      have hrest := fun p => covers_written hb (p := p) rest hbase
        (dvd_roundUp blocksize.toNat (pos + subSize blocksize.toNat f sub))
      have hpairSub := ihsub hscanSub hfitSub (Nat.dvd_add hbase hpos) (dvd_tableEnd _ _)
        (block_le_tableEnd hb.pos sub.count)
      have hpairRest := ih hscan hfit hbase (dvd_roundUp _ _) (by omega)
      have hmeet := meet_iff hb sub rest hinside hbehind
      -- the table is clear of both: it ends before its own entries, which are in the room
      have hclear : ∀ p, Covers (consecutive (base + pos)
            ((layoutTable blocksize.toNat dot sub (tableEnd blocksize.toNat (sub.count + 1))).map
              recordBytes)) p →
          ¬ Covers (written blocksize sub (base + pos) (tableEnd blocksize.toNat (sub.count + 1)) ++
            written blocksize rest base
              (roundUp blocksize.toNat (pos + subSize blocksize.toNat f sub))) p := by
        intro p hp hcov
        rw [covers_table] at hp
        rw [covers_append, hsub, hrest] at hcov
        rcases hcov with h | h
        · have hge := h.le hb
          omega
        · have hge := h.le hb
          omega
      rw [written, pairwise_append, pairwise_append, hpairSub, hpairRest, Roomy,
        Nat.add_assoc base pos (subSize blocksize.toNat f sub), roundUp_add hb.pos hbase]
      simp only [hsub, hrest]
      rw [hmeet]
      exact ⟨fun h => h.2.1, fun h => ⟨pairwise_consecutive _ _, h, hclear⟩⟩

/-- For the whole tree: its table stands in front of all that is laid out. -/
theorem pairwise_treeWritten {tree : Tree} (hscan : ScannedTree blocksize tree)
    (hfit : Fits blocksize.toNat tree.entries (firstPlace blocksize.toNat tree)) :
    (treeWritten blocksize tree).Pairwise Write.Apart ↔
      Roomy blocksize tree.entries (firstPlace blocksize.toNat tree) := by
  have htable := le_tableEnd hb.pos (tree.entries.count + 1)
  have hblock := block_le_tableEnd hb.pos tree.entries.count
  have hdvd : blocksize.toNat ∣ firstPlace blocksize.toNat tree :=
    Nat.dvd_add hscan.dvd (dvd_tableEnd _ _)
  have hpair : (written blocksize tree.entries 0 (firstPlace blocksize.toNat tree)).Pairwise
      Write.Apart ↔ Roomy blocksize tree.entries (0 + firstPlace blocksize.toNat tree) :=
    pairwise_written hb tree.entries hscan.entries ((Nat.zero_add _).symm ▸ hfit) (Nat.dvd_zero _)
      hdvd (Nat.le_trans hblock (Nat.le_add_left _ _))
  have hclear : ∀ p, Covers (consecutive tree.dot.ustart.toNat ((layoutTable blocksize.toNat tree.dot
        tree.entries (firstPlace blocksize.toNat tree)).map recordBytes)) p →
      ¬ Covers (written blocksize tree.entries 0 (firstPlace blocksize.toNat tree)) p := by
    intro p hp hcov
    rw [covers_table] at hp
    have hge := ((covers_written hb tree.entries (Nat.dvd_zero _) hdvd).mp hcov).le hb
    rw [firstPlace] at hge
    omega
  rw [Nat.zero_add] at hpair
  rw [treeWritten, pairwise_append, hpair]
  exact ⟨fun h => h.2.1, fun h => ⟨pairwise_consecutive _ _, h, hclear⟩⟩

end

/-- No byte of the image is written twice if and only if no subdirectory runs into what
    comes behind it. -/
theorem image_apart (hb : BlockSize blocksize) {config : Config} {dirents : Dirents} {tree : Tree}
    (hok : InputOk blocksize.toNat config dirents)
    (htree : prepareDir blocksize config dirents = some tree)
    (hfit : AddressesFit blocksize.toNat tree) :
    (writeSdb blocksize (allocStorage blocksize tree) ⟨0, []⟩).writes.Pairwise Write.Apart ↔
      Roomy blocksize tree.entries (firstPlace blocksize.toNat tree) := by
  have hscan := prepareDir_scanned hok htree
  rw [writeSdb_eq hb hscan hfit, List.nil_append]
  exact pairwise_treeWritten hb hscan hfit.2

/-! ## A directory and a file -/

/-- A file that can be read by all. -/
def readable (bytes : List Byte) (h : bytes.length < 0x8000000000000000) : RegularFile where
  size := bytes.length
  contents := some bytes
  iroth := true
  iwoth := false
  ixoth := false
  sized := fun _ h => congrArg List.length (Option.some.inj h).symm
  size_lt := h

/-- A directory "d" with a file "f", and a file "g" of one byte. -/
def nested (f : RegularFile) : Dirents :=
  .dir ⟨[0x64], by decide⟩ [] (.file ⟨[0x66], by decide⟩ f .nil)
    (.file ⟨[0x67], by decide⟩ (readable [0xaa] (by decide)) .nil)

/-- What is scanned of it. -/
def nestedTree (f : RegularFile) : Tree :=
  ⟨fillDot 0 3, .subdir (fillDir 0 ⟨[0x64], by decide⟩) (fillDot 1 2)
    (.file (fillFile 64 1 ⟨[0x66], by decide⟩ f) f .nil)
    (.file (fillFile 64 0 ⟨[0x67], by decide⟩ (readable [0xaa] (by decide)))
      (readable [0xaa] (by decide)) .nil)⟩

theorem nested_scan (f : RegularFile) : prepareDir 64 [] (nested f) = some (nestedTree f) := rfl

/-- It asks for nothing unusual. -/
theorem nested_ok (f : RegularFile) : InputOk 64 [] (nested f) where
  few := (by decide : 3 < 0x10000)
  maxsizes := fun _ h => absurd h List.not_mem_nil
  positions := fun _ h => absurd h List.not_mem_nil
  subdirs := ⟨(by decide : 2 < 0x10000), fun _ h => absurd h List.not_mem_nil, trivial, trivial⟩

/-- The default block size is one. -/
theorem blockSize_64 : BlockSize 64 := ⟨⟨6, rfl⟩, by decide⟩

/-- With two bytes in the file, the directory stays in its room. -/
theorem image_apart_nested :
    (writeSdb 64 (allocStorage 64 (nestedTree (readable [0xaa, 0xbb] (by decide))))
      ⟨0, []⟩).writes.Pairwise Write.Apart := by
  refine (image_apart blockSize_64 (nested_ok _) (nested_scan _) ?_).mpr ?_
  · refine ⟨by decide, by decide, by decide, ⟨by decide, by decide, by decide, trivial⟩,
      by decide, by decide, by decide, trivial⟩
  · refine ⟨trivial, trivial, ?_⟩
    rintro k (h | h)
    · have hend : (384 + 64 * k) < 320 + 2 := h.2
      omega
    · exact h.elim

/-- With one byte, the file and the file behind the directory are written to the same
    place. -/
theorem image_overlaps : ∃ dirents tree, InputOk 64 [] dirents ∧
    prepareDir 64 [] dirents = some tree ∧ AddressesFit 64 tree ∧
    ¬ (writeSdb 64 (allocStorage 64 tree) ⟨0, []⟩).writes.Pairwise Write.Apart := by
  have hfit : AddressesFit 64 (nestedTree (readable [0xaa] (by decide))) :=
    ⟨by decide, by decide, by decide, ⟨by decide, by decide, by decide, trivial⟩,
      by decide, by decide, by decide, trivial⟩
  have hscan : ScannedTree 64 (nestedTree (readable [0xaa] (by decide))) :=
    prepareDir_scanned (nested_ok _) (nested_scan _)
  refine ⟨_, _, nested_ok _, nested_scan _, hfit, ?_⟩
  rw [writeSdb_eq blockSize_64 hscan hfit, List.nil_append,
    pairwise_treeWritten blockSize_64 hscan hfit.2]
  rintro ⟨_, _, hclear⟩
  -- the byte at 320 is that of "f", and that of "g"
  exact hclear 0 (Or.inl ⟨Nat.le_refl 320, Nat.lt_succ_self 320⟩)
    (Or.inl ⟨Nat.le_refl 320, Nat.lt_succ_self 320⟩)

end GensdbfsApart
