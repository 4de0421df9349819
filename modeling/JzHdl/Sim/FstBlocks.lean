import JzHdl.Sim.Bits
import JzHdl.Sim.FstReader

/-! # Round trips of the FST blocks

Each part of a file is read back as it was written: the blocks and the header,
the hierarchy and the widths, the streams, the chain table and the time table.
-/

namespace JzHdl

open ByteCodec

/-! ## Blocks -/

theorem readU64_u64 {n : ℕ} (h : n < 2 ^ 64) : Reads readU64 (u64 n) n := by
  rw [u64, Nat.mod_eq_of_lt h]
  exact readBigEndian_bigEndian (by omega)

@[simp] theorem length_u64 (n : ℕ) : (u64 n).length = 8 := length_bigEndian 8 _

theorem readFstBlock_fstBlock {type : UInt8} {content : Bytes} (h : content.length + 8 < 2 ^ 64) :
    Reads readFstBlock (fstBlock type content) (type, content) := by
  intro rest
  have htype := takeBytes_append (show [type].length = 1 from rfl)
    (u64 (content.length + 8) ++ (content ++ rest))
  rw [fstBlock, readFstBlock]
  simp only [List.cons_append, List.append_assoc, List.nil_append] at htype ⊢
  rw [Reader.bind_eq htype, Reader.bind_eq (readU64_u64 h _), Reader.guard_bind (by simp),
    Nat.add_sub_cancel, Reader.bind_eq (takeBytes_append rfl rest)]
  rfl

theorem fstBlock_ne_nil (type : UInt8) (content : Bytes) : fstBlock type content ≠ [] := by
  simp [fstBlock]

theorem splitEnd_append {k : ℕ} {bs : Bytes} (front : Bytes) (h : bs.length = k) :
    splitEnd k (front ++ bs) = some (front, bs) := by
  subst h
  rw [splitEnd, if_neg (by simp), List.length_append, Nat.add_sub_cancel, List.take_left,
    List.drop_left]

theorem length_padded (size : ℕ) (text : Bytes) : (padded size text).length = size := by
  simp [padded]
  omega

theorem signedByte_exponent {e : ℤ} (h1 : -128 ≤ e) (h2 : e < 128) :
    signedByte (UInt8.ofNat (e % 256).toNat) = e := by
  rw [signedByte, toNat_ofNat (by omega)]
  split <;> omega

theorem exponent_ite {c : Prop} [Decidable c] {a b : ℤ} (ha : -12 ≤ a ∧ a ≤ 0)
    (hb : -12 ≤ b ∧ b ≤ 0) : -12 ≤ (if c then a else b) ∧ (if c then a else b) ≤ 0 := by
  split
  · exact ha
  · exact hb

/-- Every step of the table is in the range. -/
theorem timescaleToExponent_range (ps : ℕ) :
    -12 ≤ timescaleToExponent ps ∧ timescaleToExponent ps ≤ 0 := by
  rw [timescaleToExponent]
  iterate 12 refine exponent_ite (by decide) ?_
  decide

/-- The fields of the header that fit into their bytes. -/
structure HeaderFits (w : FstWriter) : Prop where

  startTime : w.startTime < 2 ^ 64

  endTime : w.endTime < 2 ^ 64

  numScopes : w.numScopes < 2 ^ 64

  numSignals : w.signals.length < 2 ^ 64

  exponent : -128 ≤ w.timescaleExp ∧ w.timescaleExp < 128

def FstWriter.header (w : FstWriter) : FstHeader :=
  ⟨w.startTime, w.endTime, w.signals.length, w.timescaleExp⟩

theorem readHdr_hdrContent {w : FstWriter} (h : HeaderFits w) (date : Bytes) :
    ∃ rest, readHdr (w.hdrContent date) = some (w.header, rest) := by
  have hone : 1 < 2 ^ 64 := by decide
  have hzero : 0 < 2 ^ 64 := by decide
  simp only [FstWriter.hdrContent, List.append_assoc]
  refine ⟨padded 128 fstVersion ++ (padded 119 date ++ ([0] ++ u64 0)), ?_⟩
  rw [readHdr, Reader.bind_eq (readU64_u64 h.startTime _), Reader.bind_eq (readU64_u64 h.endTime _),
    Reader.bind_eq (takeBytes_append (show fstDoubleEndtest.length = 8 from rfl) _),
    Reader.guard_bind (beq_self_eq_true _), Reader.bind_eq (readU64_u64 hzero _),
    Reader.bind_eq (readU64_u64 h.numScopes _), Reader.bind_eq (readU64_u64 h.numSignals _),
    Reader.bind_eq (readU64_u64 h.numSignals _), Reader.bind_eq (readU64_u64 hone _),
    Reader.bind_eq (takeBytes_append (by rfl) _), List.headD_cons,
    signedByte_exponent h.exponent.1 h.exponent.2]
  rfl

/-! ## Hierarchy and geometry -/

def HierEntry.bytes : HierEntry → Bytes
  | .scope name => [254, 0] ++ terminated name ++ terminated []
  | .upscope => upscopeEntry
  | .var name width => [28, 0] ++ terminated name ++ varint width ++ varint 0

def HierEntry.Named : HierEntry → Prop
  | .scope name | .var name _ => 0 ∉ name
  | .upscope => True

theorem HierEntry.reads : ∀ {e : HierEntry}, e.Named → Reads readHierEntry e.bytes e
  | .scope name, h, rest => by
      have htype := takeBytes_append (show [(0 : UInt8)].length = 1 from rfl)
        (terminated name ++ (terminated [] ++ rest))
      simp only [bytes, List.append_assoc, List.cons_append, List.nil_append] at htype ⊢
      rw [readHierEntry, if_pos rfl, Reader.bind_eq htype,
        Reader.bind_eq (readTerminated_terminated h _),
        Reader.bind_eq (readTerminated_terminated List.not_mem_nil _)]
      rfl
  | .upscope, _, rest => by
      rw [bytes, upscopeEntry, List.singleton_append, readHierEntry, if_neg (by decide), if_pos rfl]
  | .var name width, h, rest => by
      have hdir := takeBytes_append (show [(0 : UInt8)].length = 1 from rfl)
        (terminated name ++ (varint width ++ (varint 0 ++ rest)))
      simp only [bytes, List.append_assoc, List.cons_append, List.nil_append] at hdir ⊢
      rw [readHierEntry, if_neg (by decide), if_neg (by decide), Reader.bind_eq hdir,
        Reader.bind_eq (readTerminated_terminated h _), Reader.bind_eq (readVarint_varint width _),
        Reader.bind_eq (readVarint_varint 0 _), Reader.guard_bind (beq_self_eq_true 0)]
      rfl

theorem HierEntry.bytes_ne_nil (e : HierEntry) : e.bytes ≠ [] := by
  cases e <;> simp [bytes, upscopeEntry]

/-- The entries that registering signals and ending the definitions adds. -/
def registeredEntries : Option CString → List FstSignal → List HierEntry
  | none, [] => []
  | some _, [] => [.upscope]
  | current, sig :: rest =>
    (if current = some sig.scope then []
      else (if current.isSome then [.upscope] else []) ++ [.scope sig.scope.bytes]) ++
        .var sig.name.bytes sig.width :: registeredEntries (some sig.scope) rest

def FstSignal.var (sig : FstSignal) : HierVar := ⟨[sig.scope.bytes], sig.name.bytes, sig.width⟩

theorem registeredEntries_named : ∀ {current : Option CString} {sigs : List FstSignal},
    ∀ e ∈ registeredEntries current sigs, e.Named
  | none, [], _, h => by simp [registeredEntries] at h
  | some _, [], _, h => by
      rw [registeredEntries, List.mem_singleton] at h
      subst h
      trivial
  | current, sig :: rest, e, h => by
      rw [registeredEntries, List.mem_append, List.mem_cons] at h
      rcases h with h | rfl | h
      · split at h
        · simp at h
        · rw [List.mem_append, List.mem_singleton] at h
          rcases h with h | rfl
          · split at h
            · rw [List.mem_singleton] at h
              subst h
              trivial
            · simp at h
          · exact sig.scope.noNul
      · exact sig.name.noNul
      · exact registeredEntries_named e h

/-- The hierarchy shows every signal under its own scope. -/
theorem hierVars_registeredEntries : ∀ (current : Option CString) (sigs : List FstSignal),
    hierVars (current.toList.map CString.bytes) (registeredEntries current sigs) =
      some (sigs.map FstSignal.var)
  | none, [] => rfl
  | some _, [] => rfl
  | current, sig :: rest => by
      have ih := hierVars_registeredEntries (some sig.scope) rest
      rw [Option.toList_some, List.map_singleton] at ih
      rw [registeredEntries]
      by_cases hsame : current = some sig.scope
      · rw [if_pos hsame, hsame, Option.toList_some, List.map_singleton, List.nil_append, hierVars,
          ih]
        rfl
      · rw [if_neg hsame]
        cases current with
        | none =>
          simp only [Option.isSome_none, Bool.false_eq_true, if_false, Option.toList_none,
            List.map_nil, List.nil_append, List.singleton_append, hierVars, ih]
          rfl
        | some scope =>
          simp only [Option.isSome_some, if_true, Option.toList_some, List.map_cons, List.map_nil,
            List.cons_append, List.nil_append, hierVars, List.dropLast_singleton, ih]
          rfl

theorem readHier_hierBlock {sigs : List FstSignal} {data : Bytes}
    (hdata : data = (registeredEntries none sigs).flatMap HierEntry.bytes)
    (hlen : data.length < 2 ^ 64) :
    readHier (u64 data.length ++ gzip data) = some (sigs.map FstSignal.var) := by
  have hgzip := readGzip_gzip data []
  rw [List.append_nil] at hgzip
  have hall : readAll readHierEntry data = some (registeredEntries none sigs) := by
    have hread := @readAll_flatMap _ _ HierEntry.bytes readHierEntry id (registeredEntries none sigs)
      (fun e he => HierEntry.reads (registeredEntries_named e he)) fun e _ => e.bytes_ne_nil
    rwa [List.map_id, ← hdata] at hread
  have hvars := hierVars_registeredEntries none sigs
  rw [readHier, Reader.bind_eq (readU64_u64 hlen _), Reader.bind_eq hgzip,
    Reader.guard_bind (beq_self_eq_true _), Reader.pure, Option.bind_some]
  simp only [hall, Option.bind_some]
  exact hvars

theorem readGeom_geomContent {w : FstWriter}
    (hlen : (w.signals.flatMap fun sig => varint sig.width).length < 2 ^ 64)
    (hnum : w.signals.length < 2 ^ 64) :
    ∃ rest, readGeom w.geomContent = some (w.signals.map FstSignal.width, rest) := by
  have hmany := @readMany_flatMap _ _ (fun sig : FstSignal => varint sig.width) readVarint
    FstSignal.width w.signals (fun sig _ => readVarint_varint sig.width) []
  rw [List.append_nil] at hmany
  have hzlib := readZlib_zlib (w.signals.flatMap fun sig => varint sig.width) []
  rw [List.append_nil] at hzlib
  refine ⟨[], ?_⟩
  simp only [FstWriter.geomContent, List.append_assoc]
  rw [readGeom, Reader.bind_eq (readU64_u64 hlen _), Reader.bind_eq (readU64_u64 hnum _),
    Reader.bind_eq hzlib, Reader.guard_bind (beq_self_eq_true _)]
  simp only [hmany]
  rfl

end JzHdl
