import Mathlib.Algebra.Order.Ring.Nat
import Mathlib.Data.List.Basic
import Mathlib.Tactic.Common

/-! # Byte formats

Writers of numbers, strings and stored streams with their readers. A reader
takes a prefix of its input and gives back the rest, and every round trip holds
in front of any rest.
-/

namespace ByteCodec

abbrev Bytes := List UInt8

/-- Reads a value and gives back the bytes behind it. -/
abbrev Reader (α : Type*) := Bytes → Option (α × Bytes)

namespace Reader

variable {α β : Type*}

def pure (a : α) : Reader α := fun bs => some (a, bs)

def bind (r : Reader α) (f : α → Reader β) : Reader β := fun bs =>
  match r bs with
  | none => none
  | some (a, rest) => f a rest

/-- Reads nothing if the test succeeds. -/
def guard (b : Bool) : Reader Unit := if b then pure () else fun _ => none

theorem bind_eq {r : Reader α} {f : α → Reader β} {bs rest : Bytes} {a : α}
    (h : r bs = some (a, rest)) : r.bind f bs = f a rest := by
  rw [bind, h]

theorem guard_bind {b : Bool} {f : Unit → Reader β} {bs : Bytes} (h : b = true) :
    (guard b).bind f bs = f () bs := by
  rw [bind, guard, if_pos h, pure]

end Reader

/-- The reader takes exactly these bytes as this value, whatever follows them. -/
def Reads {α : Type*} (read : Reader α) (bs : Bytes) (a : α) : Prop :=
  ∀ rest, read (bs ++ rest) = some (a, rest)

theorem toNat_ofNat {n : ℕ} (h : n < 256) : (UInt8.ofNat n).toNat = n := by
  simp [Nat.mod_eq_of_lt h]

/-! ## Variable length -/

/-- Seven bits in each byte, the lowest first; the top bit marks that more follow. -/
def varint (n : ℕ) : Bytes :=
  if n < 128 then [UInt8.ofNat n] else UInt8.ofNat (n % 128 + 128) :: varint (n / 128)
termination_by n
decreasing_by omega

def readVarint : Reader ℕ
  | [] => none
  | b :: rest =>
    if b.toNat < 128 then some (b.toNat, rest)
    else
      match readVarint rest with
      | none => none
      | some (n, rest) => some (b.toNat - 128 + 128 * n, rest)

theorem readVarint_varint (n : ℕ) : Reads readVarint (varint n) n := by
  intro rest
  induction n using Nat.strongRecOn with
  | ind n ih =>
    rw [varint]
    by_cases hn : n < 128
    · rw [if_pos hn, List.singleton_append, readVarint, toNat_ofNat (by omega), if_pos hn]
    · have hbyte : (UInt8.ofNat (n % 128 + 128)).toNat = n % 128 + 128 := toNat_ofNat (by omega)
      rw [if_neg hn, List.cons_append, readVarint, hbyte, if_neg (by omega), ih _ (by omega)]
      have hsum : n % 128 + 128 - 128 + 128 * (n / 128) = n := by omega
      simp only [hsum]

theorem varint_ne_nil (n : ℕ) : varint n ≠ [] := by
  rw [varint]
  split <;> simp

/-- A number below `2 ^ (7 * k)` takes at most `k` bytes. -/
theorem length_varint_le : ∀ (k n : ℕ), n < 128 ^ (k + 1) → (varint n).length ≤ k + 1
  | 0, n, h => by rw [varint, if_pos (by simpa using h)]; simp
  | k + 1, n, h => by
      rw [varint]
      split
      · simp
      · have hdiv : n / 128 < 128 ^ (k + 1) := by
          rw [Nat.div_lt_iff_lt_mul (by decide)]
          rwa [pow_succ] at h
        simpa using length_varint_le k (n / 128) hdiv

/-! ## Fixed length -/

/-- The first `k` bytes. -/
def takeBytes (k : ℕ) : Reader Bytes := fun bs =>
  if bs.length < k then none else some (bs.take k, bs.drop k)

theorem takeBytes_append {k : ℕ} {bs : Bytes} (h : bs.length = k) (rest : Bytes) :
    takeBytes k (bs ++ rest) = some (bs, rest) := by
  subst h
  rw [takeBytes, if_neg (by simp), List.take_left, List.drop_left]

def bigEndian : ℕ → ℕ → Bytes
  | 0, _ => []
  | k + 1, n => bigEndian k (n / 256) ++ [UInt8.ofNat (n % 256)]

def ofBigEndian (bs : Bytes) : ℕ := bs.foldl (fun n b => n * 256 + b.toNat) 0

def littleEndian : ℕ → ℕ → Bytes
  | 0, _ => []
  | k + 1, n => UInt8.ofNat (n % 256) :: littleEndian k (n / 256)

def ofLittleEndian : Bytes → ℕ
  | [] => 0
  | b :: bs => b.toNat + 256 * ofLittleEndian bs

@[simp] theorem length_bigEndian : ∀ (k n : ℕ), (bigEndian k n).length = k
  | 0, _ => rfl
  | k + 1, n => by rw [bigEndian, List.length_append, length_bigEndian k, List.length_singleton]

@[simp] theorem length_littleEndian : ∀ (k n : ℕ), (littleEndian k n).length = k
  | 0, _ => rfl
  | k + 1, n => by rw [littleEndian, List.length_cons, length_littleEndian k]

theorem ofBigEndian_bigEndian : ∀ (k n : ℕ), n < 256 ^ k → ofBigEndian (bigEndian k n) = n
  | 0, n, h => by
      have hn : n = 0 := by simpa using h
      rw [hn]; rfl
  | k + 1, n, h => by
      have hdiv : n / 256 < 256 ^ k := by
        rw [Nat.div_lt_iff_lt_mul (by decide)]
        rwa [pow_succ] at h
      have ih := ofBigEndian_bigEndian k (n / 256) hdiv
      rw [ofBigEndian] at ih
      rw [bigEndian, ofBigEndian, List.foldl_append, ih, List.foldl_cons, List.foldl_nil,
        toNat_ofNat (by omega)]
      omega

theorem ofLittleEndian_littleEndian : ∀ (k n : ℕ), n < 256 ^ k →
    ofLittleEndian (littleEndian k n) = n
  | 0, n, h => by
      have hn : n = 0 := by simpa using h
      rw [hn]; rfl
  | k + 1, n, h => by
      have hdiv : n / 256 < 256 ^ k := by
        rw [Nat.div_lt_iff_lt_mul (by decide)]
        rwa [pow_succ] at h
      rw [littleEndian, ofLittleEndian, ofLittleEndian_littleEndian k _ hdiv,
        toNat_ofNat (by omega)]
      omega

def readBigEndian (k : ℕ) : Reader ℕ := (takeBytes k).bind fun bs => .pure (ofBigEndian bs)

def readLittleEndian (k : ℕ) : Reader ℕ :=
  (takeBytes k).bind fun bs => .pure (ofLittleEndian bs)

theorem readBigEndian_bigEndian {k n : ℕ} (h : n < 256 ^ k) :
    Reads (readBigEndian k) (bigEndian k n) n := by
  intro rest
  rw [readBigEndian, Reader.bind_eq (takeBytes_append (length_bigEndian k n) rest),
    ofBigEndian_bigEndian k n h]
  rfl

theorem readLittleEndian_littleEndian {k n : ℕ} (h : n < 256 ^ k) :
    Reads (readLittleEndian k) (littleEndian k n) n := by
  intro rest
  rw [readLittleEndian, Reader.bind_eq (takeBytes_append (length_littleEndian k n) rest),
    ofLittleEndian_littleEndian k n h]
  rfl

/-! ## Strings and sequences -/

def terminated (s : Bytes) : Bytes := s ++ [0]

def readTerminated : Reader Bytes
  | [] => none
  | b :: rest =>
    if b = 0 then some ([], rest)
    else
      match readTerminated rest with
      | none => none
      | some (s, rest) => some (b :: s, rest)

theorem readTerminated_terminated : ∀ {s : Bytes}, 0 ∉ s → Reads readTerminated (terminated s) s
  | [], _, rest => by simp [terminated, readTerminated]
  | b :: s, h, rest => by
      have hb : b ≠ 0 := fun hb => h (by simp [hb])
      have hs : 0 ∉ s := fun hs => h (List.mem_cons_of_mem _ hs)
      have ih := readTerminated_terminated hs rest
      rw [terminated] at ih ⊢
      rw [List.cons_append, List.cons_append, readTerminated, if_neg hb, ih]

section

variable {α β : Type*} {write : α → Bytes} {read : Reader β} {view : α → β}

/-- Reads a given number of values. -/
def readMany (read : Reader β) : ℕ → Reader (List β)
  | 0 => .pure []
  | n + 1 => read.bind fun a => (readMany read n).bind fun as => .pure (a :: as)

theorem readMany_flatMap : ∀ {as : List α}, (∀ a ∈ as, Reads read (write a) (view a)) →
    Reads (readMany read as.length) (as.flatMap write) (as.map view)
  | [], _, rest => rfl
  | a :: as, h, rest => by
      rw [List.flatMap_cons, List.append_assoc, List.length_cons, readMany,
        Reader.bind_eq (h a List.mem_cons_self _),
        Reader.bind_eq (readMany_flatMap (fun b hb => h b (List.mem_cons_of_mem _ hb)) rest)]
      rfl

/-- Reads values to the end of the input; every value takes a byte at least. -/
def readUntilEnd (read : Reader β) : ℕ → Bytes → Option (List β)
  | 0, bs => if bs = [] then some [] else none
  | n + 1, bs =>
    if bs = [] then some []
    else
      match read bs with
      | none => none
      | some (a, rest) => (readUntilEnd read n rest).map (a :: ·)

def readAll (read : Reader β) (bs : Bytes) : Option (List β) := readUntilEnd read bs.length bs

theorem readUntilEnd_flatMap : ∀ {as : List α} {n : ℕ},
    (∀ a ∈ as, Reads read (write a) (view a)) → (∀ a ∈ as, write a ≠ []) → as.length ≤ n →
      readUntilEnd read n (as.flatMap write) = some (as.map view)
  | [], n, _, _, _ => by cases n <;> rfl
  | a :: as, 0, _, _, h => by simp at h
  | a :: as, n + 1, hr, hne, h => by
      have hcons : (a :: as).flatMap write ≠ [] := by
        rw [List.flatMap_cons]
        simp [hne a List.mem_cons_self]
      have ih := readUntilEnd_flatMap (fun b hb => hr b (List.mem_cons_of_mem _ hb))
        (fun b hb => hne b (List.mem_cons_of_mem _ hb)) (show as.length ≤ n by simpa using h)
      rw [readUntilEnd, if_neg hcons, List.flatMap_cons, hr a List.mem_cons_self]
      simp only [ih, Option.map_some, List.map_cons]

theorem length_flatMap_le {k : ℕ} : ∀ {as : List α}, (∀ a ∈ as, (write a).length ≤ k) →
    (as.flatMap write).length ≤ as.length * k
  | [], _ => by simp
  | a :: as, h => by
      have ha := h a List.mem_cons_self
      have has := length_flatMap_le fun b hb => h b (List.mem_cons_of_mem _ hb)
      rw [List.flatMap_cons, List.length_append, List.length_cons, Nat.succ_mul]
      omega

theorem length_le_flatMap : ∀ {as : List α}, (∀ a ∈ as, write a ≠ []) →
    as.length ≤ (as.flatMap write).length
  | [], _ => by simp
  | a :: as, h => by
      have ha := List.length_pos_iff.mpr (h a List.mem_cons_self)
      have has := length_le_flatMap fun b hb => h b (List.mem_cons_of_mem _ hb)
      rw [List.flatMap_cons, List.length_append, List.length_cons]
      omega

theorem readAll_flatMap {as : List α} (hr : ∀ a ∈ as, Reads read (write a) (view a))
    (hne : ∀ a ∈ as, write a ≠ []) : readAll read (as.flatMap write) = some (as.map view) :=
  readUntilEnd_flatMap hr hne (length_le_flatMap hne)

end

/-! ## Stored streams -/

/-- A stored block; its length is followed by the complement of its length. -/
def storedBlock (last : Bool) (bs : Bytes) : Bytes :=
  littleEndian 1 (if last then 1 else 0) ++ littleEndian 2 bs.length ++
    littleEndian 2 (65535 - bs.length) ++ bs

def storedStream (bs : Bytes) : Bytes :=
  if bs.length ≤ 65535 then storedBlock true bs
  else storedBlock false (bs.take 65535) ++ storedStream (bs.drop 65535)
termination_by bs.length
decreasing_by simp; omega

/-- A stored block and whether it is the last. -/
def readStoredBlock : Reader (Bool × Bytes) :=
  (readLittleEndian 1).bind fun header => (Reader.guard (header / 2 % 4 == 0)).bind fun _ =>
    (readLittleEndian 2).bind fun len => (readLittleEndian 2).bind fun complement =>
      (Reader.guard (len + complement == 65535)).bind fun _ =>
        (takeBytes len).bind fun bs => .pure (header % 2 == 1, bs)

def readStoredBlocks : ℕ → Reader Bytes
  | 0 => fun _ => none
  | n + 1 => readStoredBlock.bind fun block =>
    if block.1 then .pure block.2
    else (readStoredBlocks n).bind fun more => .pure (block.2 ++ more)

def readStored : Reader Bytes := fun bs => readStoredBlocks bs.length bs

theorem readStoredBlock_storedBlock {last : Bool} {bs : Bytes} (h : bs.length ≤ 65535)
    (rest : Bytes) : readStoredBlock (storedBlock last bs ++ rest) = some ((last, bs), rest) := by
  have hheader : (if last then 1 else 0) < 256 ^ 1 := by cases last <;> decide
  have hlen : bs.length < 256 ^ 2 := by omega
  have hcomp : 65535 - bs.length < 256 ^ 2 := by omega
  simp only [storedBlock, List.append_assoc]
  rw [readStoredBlock, Reader.bind_eq (readLittleEndian_littleEndian hheader _),
    Reader.guard_bind (by cases last <;> rfl),
    Reader.bind_eq (readLittleEndian_littleEndian hlen _),
    Reader.bind_eq (readLittleEndian_littleEndian hcomp _),
    Reader.guard_bind (by rw [beq_iff_eq]; omega), Reader.bind_eq (takeBytes_append rfl rest)]
  cases last <;> rfl

theorem readStoredBlocks_storedStream : ∀ (n : ℕ) (bs rest : Bytes), bs.length ≤ 65535 * n →
    readStoredBlocks (n + 1) (storedStream bs ++ rest) = some (bs, rest)
  | n, bs, rest, h => by
      rw [storedStream, readStoredBlocks]
      by_cases hlen : bs.length ≤ 65535
      · rw [if_pos hlen, Reader.bind_eq (readStoredBlock_storedBlock hlen rest)]
        rfl
      · obtain ⟨n, rfl⟩ : ∃ k, n = k + 1 := ⟨n - 1, by omega⟩
        have htake : (bs.take 65535).length ≤ 65535 := by simp
        have ih := readStoredBlocks_storedStream n (bs.drop 65535) rest (by simp; omega)
        rw [if_neg hlen, List.append_assoc, Reader.bind_eq (readStoredBlock_storedBlock htake _),
          if_neg Bool.false_ne_true, Reader.bind_eq ih, List.take_append_drop]
        rfl

theorem length_storedBlock (last : Bool) (bs : Bytes) :
    (storedBlock last bs).length = bs.length + 5 := by
  simp [storedBlock]
  omega

/-- Five bytes for every block. -/
theorem length_storedStream : ∀ (n : ℕ) (bs : Bytes), bs.length ≤ 65535 * (n + 1) →
    bs.length + 5 ≤ (storedStream bs).length ∧ (storedStream bs).length ≤ bs.length + 5 * (n + 1)
  | n, bs, h => by
      rw [storedStream]
      by_cases hlen : bs.length ≤ 65535
      · rw [if_pos hlen, length_storedBlock]
        omega
      · obtain ⟨n, rfl⟩ : ∃ k, n = k + 1 := ⟨n - 1, by omega⟩
        have ih := length_storedStream n (bs.drop 65535) (by simp; omega)
        rw [if_neg hlen, List.length_append, length_storedBlock]
        simp only [List.length_drop, List.length_take] at ih ⊢
        omega

theorem readStored_storedStream (bs : Bytes) : Reads readStored (storedStream bs) bs := by
  intro rest
  have hlen := (length_storedStream bs.length bs (by omega)).1
  obtain ⟨k, hk⟩ : ∃ k, (storedStream bs ++ rest).length = k + 1 :=
    ⟨(storedStream bs ++ rest).length - 1, by rw [List.length_append]; omega⟩
  rw [readStored, hk]
  refine readStoredBlocks_storedStream k bs rest ?_
  rw [List.length_append] at hk
  omega

/-! ## Checksums and containers -/

def adler32 (bs : Bytes) : ℕ :=
  let (a, b) := bs.foldl (fun (a, b) byte =>
    let a := (a + byte.toNat) % 65521
    (a, (b + a) % 65521)) (1, 0)
  b * 65536 + a

def crc32Bit (c : UInt32) : UInt32 :=
  if c % 2 = 1 then (c >>> 1) ^^^ (0xEDB88320 : UInt32) else c >>> 1

def crc32Entry (i : UInt32) : UInt32 := crc32Bit^[8] i

def crc32 (bs : Bytes) : ℕ :=
  let crc := bs.foldl (fun (crc : UInt32) byte =>
    (crc >>> 8) ^^^ crc32Entry ((crc ^^^ byte.toUInt32) % 256)) 0xFFFFFFFF
  (crc ^^^ (0xFFFFFFFF : UInt32)).toNat

example : crc32 [49, 50, 51, 52, 53, 54, 55, 56, 57] = 0xCBF43926 := by decide +kernel

theorem adler32_lt (bs : Bytes) : adler32 bs < 256 ^ 4 := by
  have hfold : ∀ (bs : Bytes) (p : ℕ × ℕ), p.1 < 65521 → p.2 < 65521 →
      let r := bs.foldl (fun (p : ℕ × ℕ) byte =>
        ((p.1 + byte.toNat) % 65521, (p.2 + (p.1 + byte.toNat) % 65521) % 65521)) p
      r.1 < 65521 ∧ r.2 < 65521 := by
    intro bs
    induction bs with
    | nil => exact fun p h1 h2 => ⟨h1, h2⟩
    | cons b bs ih =>
      exact fun p _ _ => ih _ (Nat.mod_lt _ (by decide)) (Nat.mod_lt _ (by decide))
  have h := hfold bs (1, 0) (by decide) (by decide)
  rw [adler32]
  simp only at h ⊢
  omega

theorem crc32_lt (bs : Bytes) : crc32 bs < 256 ^ 4 := UInt32.toNat_lt _

def zlib (bs : Bytes) : Bytes := bigEndian 2 0x7801 ++ storedStream bs ++ bigEndian 4 (adler32 bs)

def readZlib : Reader Bytes :=
  (readBigEndian 2).bind fun header =>
    (Reader.guard (header / 256 % 16 == 8 && header % 31 == 0 && header / 32 % 2 == 0)).bind fun _ =>
      readStored.bind fun bs => (readBigEndian 4).bind fun sum =>
        (Reader.guard (sum == adler32 bs)).bind fun _ => .pure bs

theorem readZlib_zlib (bs : Bytes) : Reads readZlib (zlib bs) bs := by
  intro rest
  have hheader : 0x7801 < 256 ^ 2 := by decide
  simp only [zlib, List.append_assoc]
  rw [readZlib, Reader.bind_eq (readBigEndian_bigEndian hheader _), Reader.guard_bind (by decide),
    Reader.bind_eq (readStored_storedStream bs _),
    Reader.bind_eq (readBigEndian_bigEndian (adler32_lt bs) _), Reader.guard_bind (beq_self_eq_true _)]
  rfl

def gzipHeader : Bytes := [0x1f, 0x8b, 0x08, 0, 0, 0, 0, 0, 0, 0xff]

def gzip (bs : Bytes) : Bytes :=
  gzipHeader ++ storedStream bs ++ littleEndian 4 (crc32 bs) ++
    littleEndian 4 (bs.length % 256 ^ 4)

/-- Only streams without optional header fields. -/
def readGzip : Reader Bytes :=
  (takeBytes 10).bind fun header => (Reader.guard (header.take 4 == gzipHeader.take 4)).bind fun _ =>
    readStored.bind fun bs => (readLittleEndian 4).bind fun sum =>
      (readLittleEndian 4).bind fun len =>
        (Reader.guard (sum == crc32 bs && len == bs.length % 256 ^ 4)).bind fun _ => .pure bs

theorem readGzip_gzip (bs : Bytes) : Reads readGzip (gzip bs) bs := by
  intro rest
  have hlen : bs.length % 256 ^ 4 < 256 ^ 4 := Nat.mod_lt _ (by decide)
  simp only [gzip, List.append_assoc]
  rw [readGzip, Reader.bind_eq (takeBytes_append (show gzipHeader.length = 10 from rfl) _),
    Reader.guard_bind (beq_self_eq_true _), Reader.bind_eq (readStored_storedStream bs _),
    Reader.bind_eq (readLittleEndian_littleEndian (crc32_lt bs) _),
    Reader.bind_eq (readLittleEndian_littleEndian hlen _),
    Reader.guard_bind (by rw [beq_self_eq_true, beq_self_eq_true]; rfl)]
  rfl

theorem length_zlib (n : ℕ) (bs : Bytes) (h : bs.length ≤ 65535 * (n + 1)) :
    (zlib bs).length ≤ bs.length + 5 * (n + 1) + 6 := by
  have hlen := (length_storedStream n bs h).2
  simp only [zlib, List.length_append, length_bigEndian]
  omega

theorem length_gzip (n : ℕ) (bs : Bytes) (h : bs.length ≤ 65535 * (n + 1)) :
    (gzip bs).length ≤ bs.length + 5 * (n + 1) + 18 := by
  have hlen := (length_storedStream n bs h).2
  simp only [gzip, gzipHeader, List.length_append, List.length_cons, List.length_nil,
    length_littleEndian]
  omega

end ByteCodec
