import Mathlib.Data.List.OfFn
import FpgaConfigSpace.SdbfsInode
import FpgaConfigSpace.SdbfsRuns

/-! # Reading a file of the kernel file system

    `sdbfs_read` of `sdbfs-file.c` hands out a file in chunks of 16 bytes.  Every
    byte it copies to the user is kept together with the address of the device it
    was read from, to compare it with the address that the library gives the same
    record. -/

namespace SdbfsFile

open BigEndian SdbRecord SdbfsDevice SdbfsScan SdbfsOpen SdbfsTree SdbfsRuns SdbfsInode

variable {w : Nat} {σ : Type}

/-! ## `sdbfs_read` -/

/-- A byte copied to the user, and the device address it was read from. -/
structure Copied (w : Nat) where
  addr : BitVec w
  byte : Byte

/-- What a call returns, where it leaves `*offp`, and what it copied. -/
structure ReadResult (w : Nat) where
  ret : Int
  offp : Nat
  copied : List (Copied w)

/-- The bytes of a chunk. -/
def chunkOf (begin : BitVec 32) (n i : Nat) (kbuf : Fin n → Byte) : List (Copied w) :=
  ((List.finRange n).take i).map fun j =>
    ⟨begin.setWidth w + BitVec.ofNat w j.val, kbuf j⟩

/-- The loop of `sdbfs_read`: every chunk is read at `begin`, and has `n` bytes.
    `none` is a method that returns more than it was asked for. -/
def readChunks (sd : SdbfsDev w) (begin : BitVec 32) (n count offp : Nat) :
    Nat → List (Copied w) → Option (ReadResult w)
  | 0, copied => some ⟨copied.length, offp + copied.length, copied⟩
  | fuel + 1, copied =>
      if copied.length < count then
        let r := sd.read begin n
        if r.1 < 0 then
          -- what was copied before is returned, but the position is not moved
          some ⟨if copied.length ≠ 0 then copied.length else r.1, offp, copied⟩
        else if (n : Int) < r.1 then none
        else
          let copied := copied ++ chunkOf begin n r.1.toNat r.2
          if r.1 ≠ n then some ⟨copied.length, offp + copied.length, copied⟩
          else readChunks sd begin n count offp fuel copied
      else some ⟨copied.length, offp + copied.length, copied⟩

/-- `start`, the address of a file. -/
def fileStart (info : Record) : BitVec w := (addrFirst info).setWidth w

/-- `size`, the length of a file. -/
def fileSize (info : Record) : BitVec w := (addrLast info + 1 - addrFirst info).setWidth w

/-- The first argument of the device read: `start + *offp`, as an `uint32_t`. -/
def readBegin (start : BitVec w) (offp : Nat) : BitVec 32 := BitVec.ofNat 32 (start.toNat + offp)

/-- `sdbfs_read` of `count` bytes at `*offp`, from the record of the inode. -/
def sdbfsRead (sd : SdbfsDev w) (info : Record) (count offp : Nat) : Option (ReadResult w) :=
  let size := (fileSize info : BitVec w).toNat
  if size < offp then some ⟨0, offp, []⟩
  else
    -- `*offp + count` has 64 bits, and no sign
    let count := if size < (offp + count) % 0x10000000000000000 then size - offp else count
    let n := if count < 16 then count else 16
    readChunks sd (readBegin (fileStart info : BitVec w) offp) n count offp count []

/-! ## Where the bytes come from -/

/-- A chunk has as many bytes as were copied. -/
theorem chunkOf_length (begin : BitVec 32) {n i : Nat} (hi : i ≤ n) (kbuf : Fin n → Byte) :
    (chunkOf begin n i kbuf : List (Copied w)).length = i := by
  rw [chunkOf, List.length_map, List.length_take, List.length_finRange]
  exact Nat.min_eq_left hi

/-- Byte `j` of a chunk is from there on. -/
theorem chunkOf_addr {begin : BitVec 32} {n i : Nat} {kbuf : Fin n → Byte} {j : Nat}
    {x : Copied w} (h : (chunkOf begin n i kbuf)[j]? = some x) :
    x.addr = begin.setWidth w + BitVec.ofNat w j ∧ j < n := by
  rw [chunkOf, List.getElem?_map] at h
  obtain ⟨f, hf, rfl⟩ := Option.map_eq_some_iff.mp h
  obtain ⟨hj, hf⟩ := List.getElem?_eq_some_iff.mp hf
  rw [List.getElem_take, List.getElem_finRange] at hf
  have hval : f.val = j := by
    rw [← hf]
    rfl
  exact ⟨by rw [← hval], hval ▸ f.isLt⟩

/-- Every byte copied so far comes from the chunk at `begin`. -/
def FromChunk (begin : BitVec 32) (n : Nat) (copied : List (Copied w)) : Prop :=
  ∀ k x, copied[k]? = some x → x.addr = begin.setWidth w + BitVec.ofNat w (k % n)

/-- One chunk more, behind whole ones. -/
theorem FromChunk.append {begin : BitVec 32} {n i : Nat} {copied : List (Copied w)}
    (h : FromChunk begin n copied) (hn : n ∣ copied.length) (kbuf : Fin n → Byte) :
    FromChunk begin n (copied ++ chunkOf begin n i kbuf) := by
  intro k x hx
  by_cases hk : k < copied.length
  · rw [List.getElem?_append_left hk] at hx
    exact h k x hx
  · rw [List.getElem?_append_right (Nat.le_of_not_lt hk)] at hx
    obtain ⟨haddr, hlt⟩ := chunkOf_addr hx
    obtain ⟨q, hq⟩ := hn
    have hmod : k % n = k - copied.length := by
      have hk' : k = (k - copied.length) + n * q := by omega
      rw [hk', Nat.add_mul_mod_self_left, Nat.mod_eq_of_lt (by omega)]
      omega
    rw [hmod]
    exact haddr

/-- What was copied ends in a chunk that began before `count`. -/
def Ends (n count : Nat) (copied : List (Copied w)) : Prop :=
  copied ≠ [] → ∃ m, n ∣ m ∧ m < count ∧ copied.length ≤ m + n

/-- The loop copies chunks of `n` bytes from one place, the last of them before `count`. -/
theorem readChunks_from {sd : SdbfsDev w} {begin : BitVec 32} {n count offp : Nat} :
    ∀ {fuel : Nat} {copied : List (Copied w)} {res : ReadResult w},
    readChunks sd begin n count offp fuel copied = some res → n ∣ copied.length →
    FromChunk begin n copied → Ends n count copied →
    FromChunk begin n res.copied ∧ Ends n count res.copied := by
  intro fuel
  induction fuel with
  | zero =>
      intro copied res h _ hfrom hlen
      cases h
      exact ⟨hfrom, hlen⟩
  | succ fuel ih =>
      intro copied res h hn hfrom hlen
      rw [readChunks] at h
      by_cases hcount : copied.length < count
      · rw [if_pos hcount] at h
        simp only at h
        by_cases hneg : (sd.read begin n).1 < 0
        · rw [if_pos hneg] at h
          cases h
          exact ⟨hfrom, hlen⟩
        · rw [if_neg hneg] at h
          by_cases hmore : (n : Int) < (sd.read begin n).1
          · rw [if_pos hmore] at h
            cases h
          · rw [if_neg hmore] at h
            have hle : (sd.read begin n).1.toNat ≤ n := by omega
            have hlen' : Ends n count (copied ++ chunkOf begin n (sd.read begin n).1.toNat
                (sd.read begin n).2) := by
              intro _
              refine ⟨copied.length, hn, hcount, ?_⟩
              rw [List.length_append, chunkOf_length begin hle]
              omega
            by_cases hpart : (sd.read begin n).1 ≠ n
            · rw [if_pos hpart] at h
              cases h
              exact ⟨hfrom.append hn _, hlen'⟩
            · rw [if_neg hpart] at h
              refine ih h ?_ (hfrom.append hn _) hlen'
              rw [List.length_append, chunkOf_length begin hle]
              have hfull : (sd.read begin n).1.toNat = n := by omega
              rw [hfull]
              exact Nat.dvd_add hn (Nat.dvd_refl n)
      · rw [if_neg hcount] at h
        cases h
        exact ⟨hfrom, hlen⟩

/-- The `k`-th byte of a call comes from byte `k` modulo 16 behind the place the call
    begins at. -/
theorem sdbfsRead_addr {sd : SdbfsDev w} {info : Record} {count offp : Nat} {res : ReadResult w}
    (h : sdbfsRead sd info count offp = some res) {k : Nat} {x : Copied w}
    (hk : res.copied[k]? = some x) :
    x.addr = (readBegin (fileStart info : BitVec w) offp).setWidth w +
      BitVec.ofNat w (k % 16) := by
  rw [sdbfsRead] at h
  simp only at h
  split at h
  · cases h
    cases hk
  · generalize (if (fileSize info : BitVec w).toNat < (offp + count) % 0x10000000000000000 then
      (fileSize info : BitVec w).toNat - offp else count) = bounded at h
    have hempty : FromChunk (readBegin (fileStart info : BitVec w) offp)
        (if bounded < 16 then bounded else 16) ([] : List (Copied w)) := by
      intro k x hx
      cases hx
    obtain ⟨hfrom, hlen⟩ := readChunks_from h (Nat.dvd_zero _) hempty (fun hne => absurd rfl hne)
    have haddr := hfrom k x hk
    have hklt := (List.getElem?_eq_some_iff.mp hk).1
    have hne : res.copied ≠ [] := by
      intro hnil
      rw [hnil] at hklt
      cases hklt
    obtain ⟨m, hdvd, hlt, hle⟩ := hlen hne
    by_cases hb : bounded < 16
    · -- a short call is one chunk
      rw [if_pos hb] at haddr hdvd hle
      have hm : m = 0 := Nat.eq_zero_of_dvd_of_lt hdvd hlt
      rw [Nat.mod_eq_of_lt (by omega)] at haddr ⊢
      exact haddr
    · rw [if_neg hb] at haddr
      exact haddr

/-! ## The same record in the library -/

/-- A file that a path leads to, whatever was looked up before. -/
structure KernelFile (sd : SdbfsDev w) where
  history : List (List DName)
  before : ICache w
  looked : lookupPaths sd (mounted sd) history = some before
  path : List DName
  node : Node w
  found : ∃ behind, lookupPath sd before path = some (behind, some node)

/-- The bits of an address that an `uint32_t` loses. -/
def highPart (x : BitVec w) : BitVec w := x - (x.setWidth 32).setWidth w

/-- What has to vanish for the two addresses of a byte to agree: the bases of the
    bridges on the path, the bits above the 32nd of where the call begins, and the
    chunks before the one the byte is in. -/
def displacement (path : List Record) (info : Record) (offp k : Nat) : BitVec w :=
  baseOf path + highPart (fileStart info + BitVec.ofNat w offp) + BitVec.ofNat w (16 * (k / 16))

/-- The address has the low 32 bits of the sum. -/
theorem readBegin_eq (hw : 32 ≤ w) (start : BitVec w) (offp : Nat) :
    readBegin start offp = (start + BitVec.ofNat w offp).setWidth 32 := by
  apply BitVec.eq_of_toNat_eq
  rw [readBegin, BitVec.toNat_ofNat, BitVec.toNat_setWidth, BitVec.toNat_add, BitVec.toNat_ofNat,
    Nat.add_mod_mod, Nat.mod_mod_of_dvd _ (Nat.pow_dvd_pow 2 hw)]

/-- Both sides without what they have in common. -/
theorem add_eq_iff (l r b s o c : BitVec w) :
    l + r = b + s + (o + c + r) ↔ b + (s + o - l) + c = 0 := by
  have hshift : b + s + (o + c + r) = (b + (s + o - l) + c) + (l + r) := by grind
  rw [hshift]
  constructor
  · intro h
    grind
  · intro h
    rw [h]
    exact (BitVec.zero_add (l + r)).symm

/-- The kernel and the library agree on a byte exactly if nothing displaces it. -/
theorem displacement_eq_zero (hw : 32 ≤ w) (path : List Record) (info : Record) (offp k : Nat) :
    (readBegin (fileStart info : BitVec w) offp).setWidth w + BitVec.ofNat w (k % 16) =
      baseOf path + fileStart info + BitVec.ofNat w (offp + k) ↔
    displacement path info offp k = (0 : BitVec w) := by
  have hk : BitVec.ofNat w (offp + k) =
      BitVec.ofNat w offp + BitVec.ofNat w (16 * (k / 16)) + BitVec.ofNat w (k % 16) := by
    rw [← BitVec.ofNat_add, ← BitVec.ofNat_add, Nat.add_assoc, Nat.div_add_mod]
  rw [readBegin_eq hw, hk, displacement, highPart]
  exact add_eq_iff _ _ _ _ _ _

variable {host : Host w} {content : BitVec w → Record}

/-- **The kernel reads a byte where the library says it is exactly if nothing displaces
    it.**  A file that the library scan returns and that a kernel lookup finds, at
    whatever depth; any call of `sdbfs_read`, and any byte it copies. -/
theorem kernel_address (hw : 32 ≤ w) {fs fs' : Sdbfs w σ} (hd : Delivers host fs content)
    (hdecl : AllDeclared (preorder content fs.entrypoint))
    (hnull : ∀ e ∈ preorder content fs.entrypoint, ¬ NullAt fs e.pos) {n : Nat}
    (hn : (preorder content fs.entrypoint).length < n) {rs : List (Returned w)}
    (hscan : scanAll host n fs true = .done (fs', rs)) {i : Nat} {r : Returned w} {e : Entry w}
    (hr : rs[i]? = some r) (he : (preorder content fs.entrypoint)[i]? = some e) {sd : SdbfsDev w}
    (file : KernelFile sd) (hsame : file.node.info = r.record) {count offp : Nat}
    {res : ReadResult w} (hread : sdbfsRead sd file.node.info count offp = some res) {k : Nat}
    {x : Copied w} (hk : res.copied[k]? = some x) :
    x.addr = r.fOffset + BitVec.ofNat w (offp + k) ↔
      displacement e.path r.record offp k = (0 : BitVec w) := by
  have hreturned : r = returned fs e := by
    obtain ⟨_, hall⟩ := scanAll_preorder hd hnull hdecl hn
    rw [hscan] at hall
    cases hall
    rw [List.getElem?_map, he] at hr
    exact (Option.some.inj hr).symm
  have hoffset : r.fOffset = baseOf e.path + fileStart r.record := by
    rw [hreturned]
    rfl
  rw [sdbfsRead_addr hread hk, hsame, hoffset]
  exact displacement_eq_zero hw e.path r.record offp k

/-! ## A file behind a bridge -/

/-- The record of the file that is found behind both bridges. -/
def sharedFile : Record := mappedContent 0x1000 sharedBytes 256

/-- A path leads to the shared device. -/
theorem shared_kernelFile :
    ∃ file : KernelFile (bytesDev sharedBytes), file.node.info = sharedFile := by
  have hfound : (lookupPath (bytesDev sharedBytes) (mounted (bytesDev sharedBytes))
      pathAF).map (fun r => r.2.map fun node => List.ofFn node.info) =
      some (some (List.ofFn sharedFile)) := by decide +kernel
  obtain ⟨⟨behind, found⟩, hlook, hinfo⟩ := Option.map_eq_some_iff.mp hfound
  obtain ⟨node, hnode, hrecord⟩ := Option.map_eq_some_iff.mp hinfo
  cases hnode
  exact ⟨⟨[], _, rfl, _, node, behind, hlook⟩, List.ofFn_injective hrecord⟩

/-- The library finds it below the first bridge. -/
theorem shared_entry : ∃ e : Entry 32, (preorder (mappedContent 0x1000 sharedBytes) 0)[3]? = some e ∧
    e.record = sharedFile ∧ e.fOffset = 0x110 := by
  have hrecord : ((preorder (mappedContent 0x1000 sharedBytes) 0)[3]?).map
      (fun e => (List.ofFn e.record, e.fOffset)) = some (List.ofFn sharedFile, 0x110#32) := by
    decide +kernel
  obtain ⟨e, he, heq⟩ := Option.map_eq_some_iff.mp hrecord
  obtain ⟨hrec, hoffset⟩ := Prod.mk.inj heq
  exact ⟨e, he, List.ofFn_injective hrec, hoffset⟩

/-- So says the scan. -/
theorem shared_scan : ∃ fs', scanAll (mappedHost 0x1000 sharedBytes) 8 (mapped 0 0x1000) true =
    .done (fs', (preorder (mappedContent 0x1000 sharedBytes) 0).map
      (returned (mapped 0 0x1000))) := by
  have hd : Delivers (mappedHost 0x1000 sharedBytes) (mapped 0 0x1000)
      (mappedContent 0x1000 sharedBytes) := by
    intro pos
    rfl
  exact scanAll_preorder hd (by decide +kernel) (by decide +kernel) (by decide +kernel)

/-- The kernel reads it from the address in the record. -/
theorem shared_read : ∃ res x, sdbfsRead (bytesDev sharedBytes) sharedFile 1 0 = some res ∧
    res.copied[0]? = some x ∧ x.addr = 0x10 := by
  have haddr : (sdbfsRead (bytesDev sharedBytes) sharedFile 1 0).bind
      (fun res => res.copied[0]?.map Copied.addr) = some 0x10#32 := by decide +kernel
  obtain ⟨res, hres, hx⟩ := Option.bind_eq_some_iff.mp haddr
  obtain ⟨x, hx, hxa⟩ := Option.map_eq_some_iff.mp hx
  exact ⟨res, x, hres, hx, hxa⟩

theorem kernel_address_shared : ∃ (e : Entry 32) (r : Returned 32) (x : Copied 32),
    (preorder (mappedContent 0x1000 sharedBytes) 0)[3]? = some e ∧ r.record = sharedFile ∧
      (x.addr = r.fOffset + BitVec.ofNat 32 (0 + 0) ↔
        displacement e.path r.record 0 0 = 0#32) := by
  obtain ⟨file, hinfo⟩ := shared_kernelFile
  obtain ⟨e, he, hrec, _⟩ := shared_entry
  obtain ⟨fs', hscan⟩ := shared_scan
  obtain ⟨res, x, hread, hx, _⟩ := shared_read
  have hd : Delivers (mappedHost 0x1000 sharedBytes) (mapped 0 0x1000)
      (mappedContent 0x1000 sharedBytes) := by
    intro pos
    rfl
  have hr : ((preorder (mappedContent 0x1000 sharedBytes) 0).map
      (returned (mapped 0 0x1000)))[3]? = some (returned (mapped 0 0x1000) e) := by
    rw [List.getElem?_map, he]
    rfl
  have hsame : file.node.info = (returned (mapped 0 0x1000) e).record := hinfo.trans hrec.symm
  rw [← hinfo] at hread
  exact ⟨e, returned (mapped 0 0x1000) e, x, he, hrec, kernel_address (by decide) hd (by decide +kernel)
    (by decide +kernel) (by decide +kernel) hscan hr he file hsame hread hx⟩

/-- The first byte of the file is at 0x110 for the library, and the kernel reads it at
    0x10. -/
theorem kernel_address_differs : ∃ (fs' : Sdbfs 32 Unit) (rs : List (Returned 32))
    (r : Returned 32) (file : KernelFile (bytesDev sharedBytes)) (res : ReadResult 32)
    (x : Copied 32),
    scanAll (mappedHost 0x1000 sharedBytes) 8 (mapped 0 0x1000) true = .done (fs', rs) ∧
    r ∈ rs ∧ file.node.info = r.record ∧
    sdbfsRead (bytesDev sharedBytes) file.node.info 1 0 = some res ∧ res.copied[0]? = some x ∧
    x.addr ≠ r.fOffset + BitVec.ofNat 32 (0 + 0) := by
  obtain ⟨file, hinfo⟩ := shared_kernelFile
  obtain ⟨e, he, hrec, hoffset⟩ := shared_entry
  obtain ⟨fs', hscan⟩ := shared_scan
  obtain ⟨res, x, hread, hx, haddr⟩ := shared_read
  have hmem : returned (mapped 0 0x1000) e ∈ (preorder (mappedContent 0x1000 sharedBytes) 0).map
      (returned (mapped 0 0x1000)) := List.mem_map_of_mem (List.mem_of_getElem? he)
  refine ⟨fs', _, _, file, res, x, hscan, hmem, hinfo.trans hrec.symm, hinfo ▸ hread, hx, ?_⟩
  have hlib : (returned (mapped 0 0x1000) e).fOffset = 0x110 := hoffset
  rw [haddr, hlib]
  decide

end SdbfsFile
