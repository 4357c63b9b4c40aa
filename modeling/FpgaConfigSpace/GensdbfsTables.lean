import FpgaConfigSpace.GensdbfsApart

/-! # The tables of an image

    The contents of a subdirectory may run into what is written behind it, but a table
    is not touched: what is lost of a subdirectory's room is a byte for every level,
    and a table ends at a multiple of its record size.  So whatever else is written,
    the records are in the image as they were laid out. -/

namespace GensdbfsTables

open BigEndian SdbRecord FileWrites Blocks Gensdbfs GensdbfsLayout GensdbfsApart

/-- The byte of an image at a position; what was never written is zero. -/
def imageByte (ws : List (Write Byte)) (p : Nat) : Byte := (lastAt p ws).getD 0

/-- The record of an image at a position. -/
def imageRecord (ws : List (Write Byte)) (p : Nat) : Record := fun i => imageByte ws (p + i.val)

/-- The levels of directories below one. -/
def levelsBelow : Entries → Nat
  | .nil => 0
  | .file _ _ rest => levelsBelow rest
  | .subdir _ _ sub rest => max (levelsBelow sub + 1) (levelsBelow rest)

/-- The tables of the subdirectories, each with its place. -/
def tables (b : Nat) : Entries → (base pos : Nat) → List (Nat × List Record)
  | .nil, _, _ => []
  | .file f _ rest, base, pos => tables b rest base (roundUp b (pos + f.size.toNat))
  | .subdir f dot sub rest, base, pos =>
      let t := tableEnd b (sub.count + 1)
      (base + pos, layoutTable b dot sub t) ::
        (tables b sub (base + pos) t ++ tables b rest base (roundUp b (pos + subSize b f sub)))

/-- A table has a record for each entry, and its interconnect. -/
theorem layoutTable_length (b : Nat) (dot : Sdbf) (e : Entries) (pos : Nat) :
    (layoutTable b dot e pos).length = e.count + 1 :=
  congrArg (· + 1) (layoutRecords_length b e pos)

/-! ## Where the tables are -/

section

variable {b : Nat} (hpos : 0 < b) (h64 : 64 ∣ b)

include h64 in

/-- Tables are at multiples of 64. -/
theorem tables_aligned {e : Entries} : ∀ {base pos : Nat}, b ∣ base → b ∣ pos →
    ∀ tbl ∈ tables b e base pos, 64 ∣ tbl.1 := by
  induction e with
  | nil => exact fun _ _ _ h => absurd h List.not_mem_nil
  | file f file rest ih => exact fun hbase _ => ih hbase (dvd_roundUp _ _)
  | subdir f dot sub rest ihsub ih =>
      intro base pos hbase hdvd tbl htbl
      rcases List.mem_cons.mp htbl with rfl | htbl
      · exact Nat.dvd_trans h64 (Nat.dvd_add hbase hdvd)
      · rcases List.mem_append.mp htbl with htbl | htbl
        · exact ihsub (Nat.dvd_add hbase hdvd) (dvd_tableEnd _ _) tbl htbl
        · exact ih hbase (dvd_roundUp _ _) tbl htbl

include hpos in
/-- A table passes the last byte of the directory around it by one for every level. -/
theorem tables_end {e : Entries} : ∀ {base pos : Nat} (last : Nat), ∀ tbl ∈ tables b e base pos,
    tbl.1 + 64 * tbl.2.length ≤ base + lastByte b e pos last + levelsBelow e := by
  induction e with
  | nil => exact fun _ _ h => absurd h List.not_mem_nil
  | file f file rest ih => exact fun _ tbl htbl => ih _ tbl htbl
  | subdir f dot sub rest ihsub ih =>
      intro base pos last tbl htbl
      have hsize := tableEnd_le_subSize (b := b) f sub
      have htable := le_tableEnd hpos (sub.count + 1)
      have hlast : pos + subSize b f sub - 1 ≤ lastByte b (.subdir f dot sub rest) pos last :=
        Nat.le_trans (Nat.le_max_right _ _) (le_lastByte rest)
      have hlevels : levelsBelow sub + 1 ≤ levelsBelow (.subdir f dot sub rest) :=
        Nat.le_max_left _ _
      rcases List.mem_cons.mp htbl with rfl | htbl
      · rw [layoutTable_length]
        omega
      · rcases List.mem_append.mp htbl with htbl | htbl
        · have hsub := ihsub (tableEnd b (sub.count + 1)) tbl htbl
          have hroom : lastByte b sub (tableEnd b (sub.count + 1)) (tableEnd b (sub.count + 1)) ≤
              subSize b f sub := Nat.le_max_right _ _
          omega
        · have hrest := ih (max last (pos + subSize b f sub - 1)) tbl htbl
          have hle : levelsBelow rest ≤ levelsBelow (.subdir f dot sub rest) := Nat.le_max_right _ _
          exact Nat.le_trans hrest (Nat.add_le_add_left hle _)

include hpos h64 in
/-- The tables of a subdirectory are in its room. -/
theorem tables_inside {f : Sdbf} {sub : Entries} {base pos : Nat} (hbase : b ∣ base)
    (hdvd : b ∣ pos) (hlevels : levelsBelow sub < 64) :
    ∀ tbl ∈ tables b sub (base + pos) (tableEnd b (sub.count + 1)),
      tbl.1 + 64 * tbl.2.length ≤ base + roundUp b (pos + subSize b f sub) := by
  intro tbl htbl
  have hend := tables_end hpos (tableEnd b (sub.count + 1)) tbl htbl
  have hroom : lastByte b sub (tableEnd b (sub.count + 1)) (tableEnd b (sub.count + 1)) ≤
      subSize b f sub := Nat.le_max_right _ _
  have hnext := le_roundUp hpos (pos + subSize b f sub)
  obtain ⟨i, hi⟩ := tables_aligned h64 (Nat.dvd_add hbase hdvd) (dvd_tableEnd _ _) tbl htbl
  obtain ⟨j, hj⟩ := Nat.dvd_trans h64
    (Nat.dvd_add hbase (dvd_roundUp b (pos + subSize b f sub)))
  omega

end

/-! ## Reading a record back -/

/-- A byte of a record. -/
theorem recordBytes_getElem? (r : Record) {i : Nat} (hi : i < 64) :
    (recordBytes r)[i]? = some (r ⟨i, hi⟩) := by
  rw [recordBytes, List.getElem?_ofFn, dif_pos hi]

/-- A byte of a table is a byte of one of its records. -/
theorem flatten_getElem? {rs : List Record} : ∀ {j : Nat} {r : Record}, rs[j]? = some r →
    ∀ {i : Nat} (hi : i < 64), (rs.map recordBytes).flatten[64 * j + i]? = some (r ⟨i, hi⟩) := by
  induction rs with
  | nil => exact fun h => absurd h (by simp)
  | cons r rs ih =>
      intro j r' hj i hi
      rw [List.map_cons, List.flatten_cons]
      cases j with
      | zero =>
          cases hj
          rw [Nat.mul_zero, Nat.zero_add,
            List.getElem?_append_left (by rw [recordBytes_length]; exact hi)]
          exact recordBytes_getElem? r hi
      | succ j =>
          rw [List.getElem?_append_right (by rw [recordBytes_length]; omega), recordBytes_length,
            show 64 * (j + 1) + i - 64 = 64 * j + i by omega]
          exact ih hj hi

/-- The writes hold a table at a place: nothing that is written later changes it. -/
def Holds (ws : List (Write Byte)) (tbl : Nat × List Record) : Prop :=
  ∀ k v, (tbl.2.map recordBytes).flatten[k]? = some v → lastAt (tbl.1 + k) ws = some v

/-- A record of a table that the image holds. -/
theorem Holds.record {ws : List (Write Byte)} {tbl : Nat × List Record} (h : Holds ws tbl) {j : Nat}
    {r : Record} (hr : tbl.2[j]? = some r) : imageRecord ws (tbl.1 + 64 * j) = r := by
  ext1 i
  rw [imageRecord, imageByte, Nat.add_assoc, h _ _ (flatten_getElem? hr i.isLt)]
  rfl

/-- What is written in front does not matter. -/
theorem Holds.later {vs ws : List (Write Byte)} {tbl : Nat × List Record} (h : Holds ws tbl) :
    Holds (vs ++ ws) tbl := fun k v hv => lastAt_some_append (h k v hv)

/-- What is written behind a table leaves it. -/
theorem Holds.before {vs ws : List (Write Byte)} {tbl : Nat × List Record} (h : Holds vs tbl)
    (hclear : ∀ p, Covers ws p → tbl.1 + 64 * tbl.2.length ≤ p) : Holds (vs ++ ws) tbl := by
  intro k v hv
  have hk : k < 64 * tbl.2.length := by
    rw [← flatten_recordBytes]
    exact (List.getElem?_eq_some_iff.mp hv).1
  rw [lastAt_append_left]
  · exact h k v hv
  · intro hcov
    have hle := hclear _ hcov
    omega

/-- A table that was just written is there. -/
theorem holds_consecutive (start : Nat) (rs : List Record) :
    Holds (consecutive start (rs.map recordBytes)) (start, rs) := by
  intro k v hv
  rw [lastAt_consecutive _ (Nat.le_add_right start k), Nat.add_sub_cancel_left]
  exact hv

/-- It ends within the image. -/
theorem Holds.lt_fileSize {ws : List (Write Byte)} {tbl : Nat × List Record} (h : Holds ws tbl)
    {j : Nat} {r : Record} (hr : tbl.2[j]? = some r) : tbl.1 + 64 * j + 64 ≤ fileSize ws := by
  have hlast := h _ _ (flatten_getElem? hr (i := 63) (by decide))
  have hcov : Covers ws (tbl.1 + (64 * j + 63)) := by
    by_contra hnot
    rw [lastAt_of_not_covers hnot] at hlast
    cases hlast
  have hlt := FileWrites.lt_fileSize hcov
  omega

/-! ## The image holds its tables -/

section

variable {blocksize : BitVec 32} (hb : BlockSize blocksize)

include hb

/-- A block is a number of records. -/
theorem blockSize_dvd64 : 64 ∣ blocksize.toNat := by
  obtain ⟨k, hk⟩ := hb.pow
  have hle := hb.le
  rw [hk] at hle ⊢
  refine Nat.pow_dvd_pow 2 (m := 6) (Nat.le_of_not_lt fun hlt => ?_)
  have hsmall : 2 ^ k ≤ 2 ^ 5 := Nat.pow_le_pow_right (by decide) (by omega)
  omega

/-- By induction on the entries, all tables below are there. -/
theorem written_holds {e : Entries} : ∀ {base pos : Nat}, levelsBelow e < 64 →
    blocksize.toNat ∣ base → blocksize.toNat ∣ pos →
    ∀ tbl ∈ tables blocksize.toNat e base pos, Holds (written blocksize e base pos) tbl := by
  induction e with
  | nil => exact fun _ _ _ _ h => absurd h List.not_mem_nil
  | file f file rest ih =>
      intro base pos hlevels hbase hpos tbl htbl
      exact (ih hlevels hbase (dvd_roundUp _ _) tbl htbl).later
  | subdir f dot sub rest ihsub ih =>
      intro base pos hlevels hbase hpos tbl htbl
      have hsub : levelsBelow sub < 64 :=
        Nat.lt_of_succ_lt (Nat.lt_of_le_of_lt (Nat.le_max_left _ _) hlevels)
      have hrest : levelsBelow rest < 64 := Nat.lt_of_le_of_lt (Nat.le_max_right _ _) hlevels
      have hbehind : ∀ p, Covers (written blocksize rest base
          (roundUp blocksize.toNat (pos + subSize blocksize.toNat f sub))) p →
          base + roundUp blocksize.toNat (pos + subSize blocksize.toNat f sub) ≤ p :=
        fun p hp => ((covers_written hb rest hbase (dvd_roundUp _ _)).mp hp).le hb
      rcases List.mem_cons.mp htbl with rfl | htbl
      · refine (holds_consecutive _ _).before fun p hp => ?_
        have htable := le_tableEnd hb.pos (sub.count + 1)
        have hsize := tableEnd_le_subSize (b := blocksize.toNat) f sub
        have hnext := le_roundUp hb.pos (pos + subSize blocksize.toNat f sub)
        rw [layoutTable_length]
        rcases (covers_append _ _ _).mp hp with hp | hp
        · have hle := ((covers_written hb sub (Nat.dvd_add hbase hpos) (dvd_tableEnd _ _)).mp hp).le hb
          simp only
          omega
        · have hle := hbehind p hp
          simp only
          omega
      · refine Holds.later ?_
        rcases List.mem_append.mp htbl with htbl | htbl
        · refine (ihsub hsub (Nat.dvd_add hbase hpos) (dvd_tableEnd _ _) tbl htbl).before
            fun p hp => ?_
          exact Nat.le_trans (tables_inside hb.pos (blockSize_dvd64 hb) (f := f) hbase hpos
            hsub tbl htbl) (hbehind p hp)
        · exact (ih hrest hbase (dvd_roundUp _ _) tbl htbl).later

/-- The table of the top directory, and those below it. -/
def treeTables (b : Nat) (tree : Tree) : List (Nat × List Record) :=
  (tree.dot.ustart.toNat, layoutTable b tree.dot tree.entries (firstPlace b tree)) ::
    tables b tree.entries 0 (firstPlace b tree)

/-- The image holds all its tables. -/
theorem treeWritten_holds {tree : Tree} (hdvd : blocksize.toNat ∣ tree.dot.ustart.toNat)
    (hlevels : levelsBelow tree.entries < 64) :
    ∀ tbl ∈ treeTables blocksize.toNat tree, Holds (treeWritten blocksize tree) tbl := by
  have hfirst : blocksize.toNat ∣ firstPlace blocksize.toNat tree :=
    Nat.dvd_add hdvd (dvd_tableEnd _ _)
  intro tbl htbl
  rcases List.mem_cons.mp htbl with rfl | htbl
  · refine (holds_consecutive _ _).before fun p hp => ?_
    have htable := le_tableEnd hb.pos (tree.entries.count + 1)
    have hle := ((covers_written hb tree.entries (Nat.dvd_zero _) hfirst).mp hp).le hb
    rw [layoutTable_length]
    rw [firstPlace] at hle
    simp only
    omega
  · exact (written_holds hb hlevels (Nat.dvd_zero _) hfirst tbl htbl).later

end

end GensdbfsTables
