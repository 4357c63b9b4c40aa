import FpgaConfigSpace.SdbfsFile

/-! # What a read of the kernel file system delivers

    The loop of `sdbfs_read` on a device that delivers all it is asked for.  A call
    ends with a whole chunk, and every chunk holds the same bytes. -/

namespace SdbfsReadLoop

open BigEndian SdbRecord SdbfsInode SdbfsFile

variable {w : Nat} {sd : SdbfsDev w} {storage : BitVec w → Byte}

/-- The read method delivers all it is asked for, out of a storage. -/
def Serves (sd : SdbfsDev w) (storage : BitVec w → Byte) : Prop :=
  ∀ begin n, (sd.read begin n).1 = n ∧
    ∀ i : Fin n, (sd.read begin n).2 i = storage (begin.setWidth w + BitVec.ofNat w i.val)

/-- Every byte is the one stored at its address. -/
def Stored (storage : BitVec w → Byte) (copied : List (Copied w)) : Prop :=
  ∀ x ∈ copied, x.byte = storage x.addr

/-- A chunk of what the method delivers. -/
theorem stored_chunk (hs : Serves sd storage) (begin : BitVec 32) (n i : Nat) :
    Stored storage (chunkOf begin n i (sd.read begin n).2) := by
  intro x hx
  rw [chunkOf] at hx
  obtain ⟨j, _, rfl⟩ := List.mem_map.mp hx
  exact (hs begin n).2 j

/-- The loop stops with a whole number of chunks, as soon as they are enough. -/
theorem readChunks_serves (hs : Serves sd storage) {begin : BitVec 32} {n count offp : Nat}
    (hn : 0 < n) : ∀ {fuel : Nat} {copied : List (Copied w)}, count ≤ copied.length + fuel →
    n ∣ copied.length → copied.length < count + n → Stored storage copied →
    ∃ all, readChunks sd begin n count offp fuel copied = some ⟨all.length, offp + all.length, all⟩ ∧
      n ∣ all.length ∧ count ≤ all.length ∧ all.length < count + n ∧ Stored storage all := by
  intro fuel
  induction fuel with
  | zero =>
      intro copied hfuel hdvd hlt hstored
      exact ⟨copied, rfl, hdvd, hfuel, hlt, hstored⟩
  | succ fuel ih =>
      intro copied hfuel hdvd hlt hstored
      rw [readChunks]
      by_cases hcount : copied.length < count
      · obtain ⟨hret, _⟩ := hs begin n
        have hlen : (copied ++ chunkOf begin n n (sd.read begin n).2).length = copied.length + n := by
          rw [List.length_append, chunkOf_length begin (Nat.le_refl n)]
        rw [if_pos hcount]
        simp only [hret]
        rw [if_neg (by omega), if_neg (by omega), if_neg (by simp)]
        rw [Int.toNat_natCast]
        refine ih (by rw [hlen]; omega) (by rw [hlen]; exact Nat.dvd_add hdvd (Nat.dvd_refl n))
          (by rw [hlen]; omega) ?_
        intro x hx
        rcases List.mem_append.mp hx with hx | hx
        · exact hstored x hx
        · exact stored_chunk hs begin n n x hx
      · rw [if_neg hcount]
        exact ⟨copied, rfl, hdvd, Nat.le_of_not_lt hcount, hlt, hstored⟩

/-- The count `sdbfs_read` works with. -/
def boundedCount (w : Nat) (info : Record) (count offp : Nat) : Nat :=
  if (fileSize info : BitVec w).toNat < (offp + count) % 0x10000000000000000 then
    (fileSize info : BitVec w).toNat - offp
  else count

/-- A call within the file: as many bytes as were asked for, rounded up to chunks. -/
theorem sdbfsRead_serves (hs : Serves sd storage) {info : Record} {count offp : Nat}
    (hoffp : offp ≤ (fileSize info : BitVec w).toNat) :
    ∃ all, sdbfsRead sd info count offp = some ⟨all.length, offp + all.length, all⟩ ∧
      Stored storage all ∧ boundedCount w info count offp ≤ all.length ∧
      (all.length = boundedCount w info count offp ↔
        boundedCount w info count offp ≤ 16 ∨ 16 ∣ boundedCount w info count offp) := by
  rw [sdbfsRead]
  simp only
  rw [if_neg (Nat.not_lt.mpr hoffp)]
  show ∃ all, readChunks sd _ (if boundedCount w info count offp < 16 then
    boundedCount w info count offp else 16) (boundedCount w info count offp) offp
    (boundedCount w info count offp) [] = _ ∧ _
  generalize boundedCount w info count offp = b
  cases b with
  | zero =>
      refine ⟨[], rfl, fun x hx => absurd hx List.not_mem_nil, Nat.le_refl 0, ?_⟩
      exact ⟨fun _ => .inl (Nat.zero_le 16), fun _ => rfl⟩
  | succ b =>
      obtain ⟨n, hn⟩ : ∃ n, (if b + 1 < 16 then b + 1 else 16) = n := ⟨_, rfl⟩
      have hpos : 0 < n := by
        rw [← hn]
        split
        · exact Nat.succ_pos b
        · decide
      rw [hn]
      have hempty : Stored storage [] := fun x hx => absurd hx List.not_mem_nil
      obtain ⟨all, hread, hdvd, hle, hlt, hstored⟩ := readChunks_serves hs hpos
        (show b + 1 ≤ [].length + (b + 1) from Nat.le_add_left _ _) (Nat.dvd_zero n)
        (Nat.add_pos_left (Nat.succ_pos b) n) hempty
      refine ⟨all, hread, hstored, hle, ?_⟩
      by_cases hshort : b + 1 < 16
      · -- one chunk
        rw [if_pos hshort] at hn
        obtain ⟨q, hq⟩ := hdvd
        have hone : all.length = b + 1 := by
          have hq1 : q = 1 := by
            rw [hq, ← hn] at hle hlt
            have hlow : 0 < q := by
              by_contra h0
              rw [Nat.eq_zero_of_not_pos h0, Nat.mul_zero] at hle
              omega
            have hhigh : q < 2 := by
              refine Nat.lt_of_mul_lt_mul_left (a := b + 1) ?_
              omega
            omega
          rw [hq, hq1, hn, Nat.mul_one]
        exact ⟨fun _ => .inl (by omega), fun _ => hone⟩
      · rw [if_neg hshort] at hn
        subst hn
        omega

/-- How many bytes a call should deliver. -/
def wanted (w : Nat) (info : Record) (count offp : Nat) : Nat :=
  min count ((fileSize info : BitVec w).toNat - offp)

/-- No less is asked for than should be delivered. -/
theorem wanted_le_boundedCount (info : Record) (count offp : Nat) :
    wanted w info count offp ≤ boundedCount w info count offp := by
  rw [wanted, boundedCount]
  split
  · exact Nat.min_le_right _ _
  · exact Nat.min_le_left _ _

/-- The bound is the one intended unless the sum overflows. -/
theorem boundedCount_eq_iff (hw : w ≤ 64) {info : Record} {count : BitVec w} {offp : Nat}
    (hend : offp ≤ (fileSize info : BitVec w).toNat) :
    boundedCount w info count.toNat offp = wanted w info count.toNat offp ↔
      offp + count.toNat < 0x10000000000000000 := by
  have hword : ∀ x : BitVec w, x.toNat < 0x10000000000000000 := fun x =>
    Nat.lt_of_lt_of_le x.isLt (Nat.pow_le_pow_right (by decide) hw)
  have hcount := hword count
  have hsize := hword (fileSize info)
  rw [boundedCount, wanted]
  generalize count.toNat = c at hcount ⊢
  generalize (fileSize info : BitVec w).toNat = size at hsize hend ⊢
  by_cases hsum : offp + c < 0x10000000000000000
  · rw [Nat.mod_eq_of_lt hsum]
    refine ⟨fun _ => hsum, fun _ => ?_⟩
    split <;> omega
  · rw [if_neg (by omega)]
    omega

/-- A regular file of a mounted device: an inode that a path leads to and that is set up
    as a file, with the base of its data. -/
structure MountedFile (sd : SdbfsDev w) extends KernelFile sd where
  base : BitVec w
  regular : node.kind = .file base

/-- The byte of a file at a position. -/
def MountedFile.byte (file : MountedFile sd) (storage : BitVec w → Byte) (pos : Nat) : Byte :=
  storage (file.base + BitVec.ofNat w pos)

/-- What a call should do: deliver exactly these bytes of the file, and move on behind
    them. -/
def ReadsFile (file : MountedFile sd) (storage : BitVec w → Byte) (count offp : Nat) : Prop :=
  ∃ res, sdbfsRead sd file.node.info count offp = some res ∧
    res.copied.length = wanted w file.node.info count offp ∧
    (∀ k x, res.copied[k]? = some x → x.byte = file.byte storage (offp + k)) ∧
    res.ret = wanted w file.node.info count offp ∧
    res.offp = offp + wanted w file.node.info count offp

/-- The bytes of the chunk that is read again and again, at the place that the record
    names, are those of the file. -/
def SameBytes (file : MountedFile sd) (storage : BitVec w → Byte) (count offp : Nat) : Prop :=
  ∀ k, k < wanted w file.node.info count offp →
    storage ((readBegin (fileStart file.node.info : BitVec w) offp).setWidth w +
      BitVec.ofNat w (k % 16)) = file.byte storage (offp + k)

/-- One chunk of a file whose directory has no base, below the end of the 32-bit addresses. -/
theorem sameBytes_chunk {file : MountedFile sd} (hw : 32 ≤ w)
    (hbase : file.base = fileStart file.node.info) {count offp : Nat}
    (hlen : wanted w file.node.info count offp ≤ 16)
    (hlow : (fileStart file.node.info : BitVec w).toNat + offp < 0x100000000) :
    SameBytes file storage count offp := by
  intro k hk
  have hbegin : (readBegin (fileStart file.node.info : BitVec w) offp).setWidth w =
      fileStart file.node.info + BitVec.ofNat w offp := by
    have hle : 2 ^ 32 ≤ 2 ^ w := Nat.pow_le_pow_right (by decide) hw
    apply BitVec.eq_of_toNat_eq
    rw [readBegin, BitVec.toNat_setWidth, BitVec.toNat_ofNat, BitVec.toNat_add, BitVec.toNat_ofNat,
      Nat.mod_eq_of_lt (show _ < 2 ^ 32 from hlow), Nat.add_mod_mod]
  rw [MountedFile.byte, hbase, hbegin, Nat.mod_eq_of_lt (by omega), BitVec.add_assoc,
    ← BitVec.ofNat_add]

/-- **The kernel delivers a file in one chunk, or in equal ones.**  For every regular file
    that a path leads to after any lookups, every position and every count, on a device
    that delivers all it is asked for: a call copies the bytes of the file that are asked
    for and there, and no others, exactly if the position is behind the file, or the 64-bit
    sum of position and count does not overflow, the bytes are no more than a chunk or
    whole chunks, and the first chunk, read from the low 32 bits of the address in the
    record, holds the bytes of every chunk of the file. -/
theorem sdbfsRead_delivers (hw : w ≤ 64) (sd : SdbfsDev w) (storage : BitVec w → Byte)
    (hs : Serves sd storage) (file : MountedFile sd) (count : BitVec w) (offp : Nat) :
    ReadsFile file storage count.toNat offp ↔
      (fileSize file.node.info : BitVec w).toNat < offp ∨
        offp + count.toNat < 0x10000000000000000 ∧
        (wanted w file.node.info count.toNat offp ≤ 16 ∨
          16 ∣ wanted w file.node.info count.toNat offp) ∧
        SameBytes file storage count.toNat offp := by
  obtain ⟨info, hinfo⟩ : ∃ info, file.node.info = info := ⟨_, rfl⟩
  rw [ReadsFile, SameBytes, hinfo]
  by_cases hend : (fileSize info : BitVec w).toNat < offp
  · -- behind the end
    have hnone : wanted w info count.toNat offp = 0 := by
      rw [wanted, Nat.sub_eq_zero_of_le (Nat.le_of_lt hend)]
      exact Nat.min_zero _
    refine ⟨fun _ => .inl hend, fun _ => ⟨⟨0, offp, []⟩, ?_, ?_⟩⟩
    · rw [sdbfsRead]
      exact if_pos hend
    · rw [hnone]
      exact ⟨rfl, fun k x hx => absurd hx (by simp), rfl, rfl⟩
  · obtain ⟨all, hread, hstored, hle, hlen⟩ := sdbfsRead_serves hs (Nat.le_of_not_lt hend)
    have hbyte : ∀ k x, all[k]? = some x → x.byte =
        storage ((readBegin (fileStart info : BitVec w) offp).setWidth w +
          BitVec.ofNat w (k % 16)) := by
      intro k x hx
      rw [hstored x (List.mem_of_getElem? hx)]
      exact congrArg storage (sdbfsRead_addr hread hx)
    have hbounded := (boundedCount_eq_iff hw (Nat.le_of_not_lt hend) :
      boundedCount w info count.toNat offp = _ ↔ _)
    have hwanted : wanted w info count.toNat offp ≤ boundedCount w info count.toNat offp :=
      wanted_le_boundedCount info count.toNat offp
    constructor
    · rintro ⟨res, hres, hreslen, hfile, _⟩
      rw [hread] at hres
      cases hres
      have hall : all.length = wanted w info count.toNat offp := hreslen
      have hsum := hbounded.mp (by omega)
      have hwhole := hlen.mp (by omega)
      rw [hbounded.mpr hsum] at hwhole
      refine .inr ⟨hsum, hwhole, ?_⟩
      intro k hk
      have hx := List.getElem?_eq_getElem (show k < all.length by omega)
      rw [← hfile k _ hx, hbyte k _ hx]
    · intro h
      obtain ⟨hsum, hwhole, hsame⟩ := h.resolve_left hend
      rw [hbounded.mpr hsum] at hlen
      have hall := hlen.mpr hwhole
      refine ⟨_, hread, hall, ?_, congrArg Int.ofNat hall, congrArg (offp + ·) hall⟩
      intro k x hx
      rw [hbyte k x hx]
      exact hsame k (hall ▸ (List.getElem?_eq_some_iff.mp hx).1)

/-! ## A file of two chunks -/

/-- A table with a device `f` of 32 bytes at 256, and the low bytes of their addresses
    behind it. -/
def chunksStorage (addr : BitVec 32) : Byte :=
  ([0x53, 0x44, 0x42, 0x2d, 0, 2, 1, 1] ++ List.replicate 56 0 ++
    (List.replicate 14 0 ++ [1, 0] ++ List.replicate 6 0 ++ [1, 0x1f] ++ List.replicate 20 0 ++
      nameBytes 0x66 1)).getD addr.toNat (addr.setWidth 8)

/-- A device that delivers all it is asked for. -/
def storageDev (storage : BitVec 32 → Byte) : SdbfsDev 32 where
  entrypoint := 0
  size := 0
  fixEndian := false
  littleEndian := true
  read := fun begin n => (n, fun i => storage (begin.setWidth 32 + BitVec.ofNat 32 i.val))

theorem storageDev_serves (storage : BitVec 32 → Byte) : Serves (storageDev storage) storage :=
  fun _ _ => ⟨rfl, fun _ => rfl⟩

/-- The record of the device. -/
def chunksRecord : Record := fun i => chunksStorage (64 + BitVec.ofNat 32 i.val)

/-- The path "f" leads to the device. -/
theorem chunks_mountedFile : ∃ file : MountedFile (storageDev chunksStorage),
    file.node.info = chunksRecord ∧ file.base = 256 := by
  have hfound : (lookupPath (storageDev chunksStorage) (mounted (storageDev chunksStorage))
      [nameF]).map (fun r => r.2.map fun node => (List.ofFn node.info, node.kind)) =
      some (some (List.ofFn chunksRecord, .file 256)) := by decide +kernel
  obtain ⟨⟨behind, found⟩, hlook, hfound⟩ := Option.map_eq_some_iff.mp hfound
  obtain ⟨node, hnode, hrecord⟩ := Option.map_eq_some_iff.mp hfound
  cases hnode
  obtain ⟨hinfo, hkind⟩ := Prod.mk.inj hrecord
  exact ⟨⟨⟨[], _, rfl, _, node, behind, hlook⟩, 256, hkind⟩, List.ofFn_injective hinfo, rfl⟩

/-- One chunk of it is read as it is. -/
theorem sdbfsRead_delivers_chunk : ∃ file : MountedFile (storageDev chunksStorage),
    ReadsFile file chunksStorage (16 : BitVec 32).toNat 8 := by
  obtain ⟨file, hinfo, hbase⟩ := chunks_mountedFile
  refine ⟨file, (sdbfsRead_delivers (by decide) (storageDev chunksStorage) chunksStorage
    (storageDev_serves _) file 16 8).mpr (.inr ⟨by decide, ?_, ?_⟩)⟩
  · rw [hinfo]
    exact .inl (by decide +kernel)
  · refine sameBytes_chunk (by decide) ?_ ?_ ?_
    · rw [hinfo, hbase]
      decide +kernel
    · rw [hinfo]
      decide +kernel
    · rw [hinfo]
      decide +kernel

/-- Seventeen bytes are asked for, and thirty-two are copied. -/
theorem sdbfsRead_exceeds : ∃ file : MountedFile (storageDev chunksStorage),
    Serves (storageDev chunksStorage) chunksStorage ∧
      wanted 32 file.node.info 17 0 = 17 ∧
      ((sdbfsRead (storageDev chunksStorage) file.node.info 17 0).map fun res =>
        (res.ret, res.copied.length)) = some (32, 32) ∧
      ¬ ReadsFile file chunksStorage 17 0 := by
  obtain ⟨file, hinfo, _⟩ := chunks_mountedFile
  have hwanted : wanted 32 file.node.info 17 0 = 17 := by
    rw [hinfo]
    decide +kernel
  have hread : ((sdbfsRead (storageDev chunksStorage) file.node.info 17 0).map fun res =>
      (res.ret, res.copied.length)) = some (32, 32) := by
    rw [hinfo]
    decide +kernel
  refine ⟨file, storageDev_serves _, hwanted, hread, ?_⟩
  rintro ⟨res, hres, hlen, _⟩
  rw [hres] at hread
  have hcopied : res.copied.length = 32 := (Prod.mk.inj (Option.some.inj hread)).2
  omega

end SdbfsReadLoop
