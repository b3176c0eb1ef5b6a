import MoeJit.Internet.TcpHeader

/-!
# The round trip of TCP headers

A header to which options were appended is written as one sequence of bytes, as long as the sizes
of the options are no more than the 40 bytes they are counted as (`written_serialize`). The options are
read back one by one. What is left is padding, whose first byte is read as an END option, so that
the same options come back exactly when there is none (`ends_and_round_trips_iff`).
-/

namespace MoeJit.Tcp

open Bytes ByteReader ByteMemory List

/-! ## 1. Options that are read back -/

variable {op : TcpOption} {m : Memory} {i : Nat} {s : Parse} {ops : List TcpOption} {h : TcpHeader}

namespace TcpOption

/-- An option that a header can have been given. -/
def Plain : TcpOption → Prop
  | eol => False
  | unknown _ _ _ => False
  | _ => True

theorem length_sackBlock (block : SequenceNumber32 × SequenceNumber32) :
    (sackBlock block).length = 8 := by
  rw [sackBlock, length_append, length_put, length_put]

theorem length_sackBlocks (l : List (SequenceNumber32 × SequenceNumber32)) :
    (l.flatMap sackBlock).length = l.length * 8 := by
  induction l with
  | nil => rfl
  | cons block l ih =>
    rw [flatMap_cons, length_append, length_sackBlock, ih, length_cons]
    omega

theorem getSerializedSize_eq (h : op.Plain) :
    op.getSerializedSize = op.serialize.length % 4294967296 := by
  cases op with
  | eol | unknown => exact h.elim
  | sack l =>
    rw [getSerializedSize, serialize, length_append, length_sackBlocks]
    rfl
  | _ => rfl

theorem getKind_of_plain (h : op.Plain) : op.getKind ≠ 0 ∧ isKindKnown op.getKind = true := by
  cases op with
  | eol | unknown => exact h.elim
  | _ => exact ⟨by simp [getKind], rfl⟩

theorem plain_size_pos (h : op.Plain) : 0 < op.serialize.length := by
  cases op with
  | eol | unknown => exact h.elim
  | _ => exact Nat.succ_pos _

theorem readBlocks_eq {l : List (SequenceNumber32 × SequenceNumber32)}
    (h : read m i (l.flatMap sackBlock).length = l.flatMap sackBlock) :
    readBlocks m i l.length = l := by
  induction l generalizing i with
  | nil => rfl
  | cons block l ih =>
    rw [flatMap_cons] at h
    obtain ⟨hblock, hrest⟩ := read_of_append h
    obtain ⟨hleft, hright⟩ := read_of_append hblock
    simp only [length_put] at hleft hright
    rw [length_sackBlock] at hrest
    rw [length_cons, readBlocks, ih hrest, word_of_read hleft, word_of_read hright]

theorem sackCount_eq {n : Nat} (h : n * 8 + 2 < 256) :
    sackCount (BitVec.ofNat 8 (n * 8 + 2)) = n := by
  rw [sackCount, BitVec.toNat_ofNat, Nat.mod_eq_of_lt h]
  rw [Int.tdiv_eq_ediv_of_nonneg (by omega)]
  omega

theorem deserialize_serialize (hop : op.Plain) (hsmall : op.serialize.length < 256)
    (h : read m i op.serialize.length = op.serialize) :
    (createOption (m i)).deserialize m i = some (op, op.getSerializedSize) := by
  cases op with
  | eol | unknown => exact hop.elim
  | nop =>
    have hkind := (byte_of_read_cons h).1
    simp [createOption, deserialize, hkind, getSerializedSize]
  | mss value =>
    obtain ⟨hkind, hrest⟩ := byte_of_read_cons h
    obtain ⟨hsize, hval⟩ := byte_of_read_cons hrest
    have hval := word_of_read (k := 2) (x := value) hval
    simpa [createOption, deserialize, hkind, hsize, getSerializedSize] using hval
  | winScale scale =>
    obtain ⟨hkind, hrest⟩ := byte_of_read_cons h
    obtain ⟨hsize, hrest⟩ := byte_of_read_cons hrest
    have hval : m (i + 2) = scale := (byte_of_read_cons hrest).1
    simp [createOption, deserialize, deserializeFixed, getKind, hkind, hsize, getSerializedSize,
      hval]
  | sackPermitted =>
    obtain ⟨hkind, hrest⟩ := byte_of_read_cons h
    have hsize := (byte_of_read_cons hrest).1
    simp [createOption, deserialize, deserializeFixed, getKind, hkind, hsize, getSerializedSize]
  | sack l =>
    obtain ⟨hkind, hrest⟩ := byte_of_read_cons h
    obtain ⟨hsize, hblocks⟩ := byte_of_read_cons hrest
    have hfits : l.length * 8 + 2 < 256 := by
      rw [serialize, length_append, length_sackBlocks, add_comm] at hsmall
      exact hsmall
    have hl : readBlocks m (i + 2) (sackCount (m (i + 1))) = l := by
      rw [hsize, sackCount_eq hfits]
      exact readBlocks_eq hblocks
    simp [createOption, deserialize, hkind, hl]
  | ts timestamp echo =>
    obtain ⟨hkind, hrest⟩ := byte_of_read_cons h
    obtain ⟨hsize, hrest⟩ := byte_of_read_cons hrest
    obtain ⟨htimestamp, hecho⟩ := read_of_append (v := put (k := 4) timestamp) hrest
    simp only [length_put] at htimestamp hecho
    have htime : word 4 m (i + 2) = timestamp := word_of_read htimestamp
    have hanswer : word 4 m (i + 6) = echo := word_of_read hecho
    simp [createOption, deserialize, deserializeFixed, getKind, hkind, hsize, getSerializedSize]
    exact ⟨htime, hanswer⟩

end TcpOption

namespace TcpHeader

open TcpOption

/-- The bytes of the options. -/
def bytes (ops : List TcpOption) : List Byte := ops.flatMap TcpOption.serialize

theorem round_serialize (hop : op.Plain) (hsmall : op.serialize.length < 256)
    (h : read m s.i op.serialize.length = op.serialize) (hle : op.serialize.length ≤ s.optionLen) :
    round m s = .goesOn (s.push op op.serialize.length) := by
  have hsize : op.getSerializedSize = op.serialize.length := by
    rw [getSerializedSize_eq hop]
    exact Nat.mod_eq_of_lt (hsmall.trans (by decide))
  rw [round, deserialize_serialize hop hsmall h]
  simp only [hsize, ne_eq, not_true_eq_false, if_false, ge_iff_le, hle, if_true,
    (getKind_of_plain hop).1]

theorem parseOptions_bytes (hops : ∀ op ∈ ops, op.Plain)
    (hlen : s.header.optionsLen + (bytes ops).length < 256)
    (h : read m s.i (bytes ops).length = bytes ops) (hle : (bytes ops).length ≤ s.optionLen)
    (rounds : Nat) :
    parseOptions m (rounds + ops.length) s = parseOptions m rounds
      { i := s.i + (bytes ops).length
        optionLen := s.optionLen - (bytes ops).length
        header := { s.header with
          options := s.header.options ++ ops
          optionsLen := s.header.optionsLen + (bytes ops).length } } := by
  induction ops generalizing s with
  | nil =>
    show _ = parseOptions m rounds { s with header := { s.header with
      options := s.header.options ++ [] } }
    rw [append_nil]
    rfl
  | cons op ops ih =>
    have hop := hops op mem_cons_self
    have hsize : (bytes (op :: ops)).length = op.serialize.length + (bytes ops).length :=
      length_append
    have hpos := plain_size_pos hop
    obtain ⟨hread, hrest⟩ := read_of_append h
    have hround := round_serialize (s := s) hop (by omega) hread (by omega)
    have hne : s.optionLen ≠ 0 := by omega
    rw [length_cons, ← add_assoc, parseOptions, if_neg hne, hround]
    have hkept : (s.header.optionsLen + op.serialize.length) % 256 =
        s.header.optionsLen + op.serialize.length := Nat.mod_eq_of_lt (by omega)
    refine (ih (fun op' hop' => hops op' (mem_cons_of_mem op hop')) ?_ hrest ?_).trans ?_
    · show (s.header.optionsLen + op.serialize.length) % 256 + (bytes ops).length < 256
      omega
    · show (bytes ops).length ≤ s.optionLen - op.serialize.length
      omega
    · simp only [Parse.push, hkept, hsize, add_assoc, Nat.sub_sub, append_assoc, singleton_append]

/-- After the options, the loop is done, or it reads an END option. -/
theorem parseOptions_end (rounds : Nat) (hzero : s.optionLen ≠ 0 → m s.i = 0) :
    ∃ header size, parseOptions m (rounds + 2) s = some (.returned header size) ∧
      (s.optionLen = 0 → header = s.header ∧ size = s.header.getSerializedSize) ∧
      (s.optionLen ≠ 0 → header.options = s.header.options ++ [.eol]) := by
  by_cases hend : s.optionLen = 0
  · refine ⟨s.header, s.header.getSerializedSize, ?_, fun _ => ⟨rfl, rfl⟩, fun h => absurd hend h⟩
    rw [parseOptions, if_pos hend]
  · have hone : s.optionLen ≥ 1 := pos_of_ne_zero hend
    have hround : round m s = .goesOn (s.push .eol 1).discardPadding := by
      simp only [round, hzero hend, createOption, TcpOption.deserialize,
        TcpOption.getSerializedSize, getKind, if_true, ne_eq, not_true_eq_false, if_false, hone]
    refine ⟨(s.push .eol 1).discardPadding.header,
      (s.push .eol 1).discardPadding.header.getSerializedSize, ?_, fun h => absurd h hend,
      fun _ => rfl⟩
    rw [parseOptions, if_neg hend, hround]
    show parseOptions m (rounds + 1) (s.push .eol 1).discardPadding = _
    rw [parseOptions, if_pos (show (s.push .eol 1).discardPadding.optionLen = 0 from rfl)]

/-! ## 2. Headers with appended options -/

/-- The header after options were appended, each of which was accepted. -/
inductive Built : TcpHeader → Prop
  | new (h : TcpHeader) (hlength : h.length = 5) (hoptions : h.options = [])
      (hlen : h.optionsLen = 0) : Built h
  | append {h : TcpHeader} {option : TcpOption} (hbuilt : Built h) (hplain : option.Plain)
      (haccepted : (h.appendOption option).2 = true) : Built (h.appendOption option).1

/-- What is known of the counts of a header with appended options. -/
structure Counted (h : TcpHeader) : Prop where
  plain : ∀ op ∈ h.options, op.Plain
  optionsLen : h.optionsLen = (bytes h.options).length % 4294967296
  optionsLen_le : h.optionsLen ≤ 40
  length : h.length = (23 + h.optionsLen) / 4
  small : (bytes h.options).length ≤ 40 ∨ ∃ op ∈ h.options, 60 < op.serialize.length

theorem appendOption_accepted {option : TcpOption} (hplain : option.Plain)
    (haccepted : (h.appendOption option).2 = true) :
    (h.optionsLen + option.getSerializedSize) % 4294967296 ≤ 40 ∧
      (h.appendOption option).1 = { h with
        options := h.options ++ [option]
        optionsLen := (h.optionsLen + option.getSerializedSize) % 256
        length := (20 + 3 + (h.optionsLen + option.getSerializedSize) % 256) / 4 % 256 } := by
  have ⟨hkind, hknown⟩ := getKind_of_plain hplain
  unfold appendOption at haccepted ⊢
  split at haccepted
  · next hle =>
    refine ⟨hle, ?_⟩
    simp only [hle, if_true, hknown, Bool.not_true, Bool.false_eq_true, if_false, ne_eq, hkind,
      not_false_eq_true]
  · cases haccepted

theorem bytes_append (ops : List TcpOption) (op : TcpOption) :
    (bytes (ops ++ [op])).length = (bytes ops).length + op.serialize.length := by
  rw [bytes, flatMap_append, length_append, flatMap_singleton]
  rfl

theorem Built.counted (hbuilt : Built h) : Counted h := by
  induction hbuilt with
  | new h hlength hoptions hlen =>
    refine ⟨?_, ?_, ?_, ?_, ?_⟩
    · intro op hop
      rw [hoptions] at hop
      exact absurd hop not_mem_nil
    · rw [hoptions, hlen]
      rfl
    · rw [hlen]
      exact Nat.zero_le _
    · rw [hlength, hlen]
    · rw [hoptions]
      exact .inl (Nat.zero_le _)
  | @append h option _ hplain haccepted ih =>
    obtain ⟨hle, heq⟩ := appendOption_accepted hplain haccepted
    have hold := ih.optionsLen
    have hsize := getSerializedSize_eq hplain
    rw [heq]
    have htotal := bytes_append h.options option
    refine ⟨?_, ?_, ?_, ?_, ?_⟩
    · intro op hop
      rcases mem_append.mp hop with hop | hop
      · exact ih.plain op hop
      · rw [mem_singleton.mp hop]
        exact hplain
    · show (h.optionsLen + option.getSerializedSize) % 256 = _ % 4294967296
      rw [htotal]
      omega
    · show (h.optionsLen + option.getSerializedSize) % 256 ≤ 40
      omega
    · show (20 + 3 + (h.optionsLen + option.getSerializedSize) % 256) / 4 % 256 =
        (23 + (h.optionsLen + option.getSerializedSize) % 256) / 4
      omega
    · show (bytes (h.options ++ [option])).length ≤ 40 ∨ _
      rcases ih.small with hsmall | ⟨op, hop, hlarge⟩
      · rcases Nat.lt_or_ge 60 option.serialize.length with hlarge | hfew
        · exact .inr ⟨option, mem_append_right _ mem_cons_self, hlarge⟩
        · rw [htotal]
          exact .inl (by omega)
      · exact .inr ⟨op, mem_append_left _ hop, hlarge⟩

/-! ## 3. What is written -/

theorem foldl_sizes (hops : ∀ op ∈ ops, op.Plain) (n : Nat) :
    ops.foldl (fun len op => (len + op.getSerializedSize) % 4294967296) (n % 4294967296) =
      (n + (bytes ops).length) % 4294967296 := by
  induction ops generalizing n with
  | nil => rfl
  | cons op ops ih =>
    have hsize := getSerializedSize_eq (hops op mem_cons_self)
    have hstep : (n % 4294967296 + op.getSerializedSize) % 4294967296 =
        (n + op.serialize.length) % 4294967296 := by
      rw [hsize, ← Nat.add_mod]
    have htotal : (bytes (op :: ops)).length = op.serialize.length + (bytes ops).length :=
      length_append
    rw [foldl_cons, hstep, ih (fun op' hop' => hops op' (mem_cons_of_mem op hop')),
      htotal, add_assoc]

/-- The size that is announced is always that of the counted options. -/
theorem Counted.getSerializedSize_eq (hcounted : Counted h) :
    h.getSerializedSize = 4 * h.length ∧ h.getSerializedSize ≤ 60 := by
  have hle := hcounted.optionsLen_le
  have hlen : (20 + (bytes h.options).length) % 4294967296 = 20 + h.optionsLen := by
    have := hcounted.optionsLen
    omega
  have hfold := (foldl_sizes hcounted.plain 20).trans hlen
  have hlength := hcounted.length
  rw [TcpHeader.getSerializedSize, calculateHeaderLength]
  have hfold' : h.options.foldl (fun len op => (len + op.getSerializedSize) % 4294967296) 20 =
      20 + h.optionsLen := hfold
  simp only [hfold']
  split
  · omega
  · omega

theorem Counted.serializedOptionsLen_eq (hcounted : Counted h) :
    h.serializedOptionsLen = h.optionsLen := by
  have hfold := foldl_sizes hcounted.plain 0
  rw [zero_add, ← hcounted.optionsLen] at hfold
  exact hfold

theorem length_fixedPart (h : TcpHeader) : h.fixedPart.length = 20 := by
  simp only [fixedPart, length_append, length_put]
  rfl

theorem mem_optionChunks (hop : op ∈ ops) : ∃ j, (j, op.serialize) ∈ optionChunks i ops := by
  induction ops generalizing i with
  | nil => exact absurd hop not_mem_nil
  | cons op' ops ih =>
    rcases mem_cons.mp hop with rfl | hop
    · exact ⟨i, mem_cons_self⟩
    · obtain ⟨j, hj⟩ := ih (i := i + op'.getSerializedSize) hop
      exact ⟨j, mem_cons_of_mem _ hj⟩

theorem optionChunks_eq (hops : ∀ op ∈ ops, op.Plain) (hsmall : (bytes ops).length ≤ 40) (i : Nat) :
    optionChunks i ops = layout i (ops.map TcpOption.serialize) ∧
      (ops.map TcpOption.getSerializedSize).sum = (bytes ops).length := by
  induction ops generalizing i with
  | nil => exact ⟨rfl, rfl⟩
  | cons op ops ih =>
    have htotal : (bytes (op :: ops)).length = op.serialize.length + (bytes ops).length :=
      length_append
    have hsize : op.getSerializedSize = op.serialize.length := by
      rw [TcpOption.getSerializedSize_eq (hops op mem_cons_self)]
      omega
    obtain ⟨hchunks, hsum⟩ := ih (fun op' hop' => hops op' (mem_cons_of_mem op hop'))
      (by omega) (i + op.getSerializedSize)
    constructor
    · rw [optionChunks, hchunks, map_cons, layout, hsize]
    · rw [map_cons, sum_cons, hsum, hsize, htotal]

/-- Everything that is written but the checksum. -/
def image (h : TcpHeader) : List (List Byte) :=
  h.fixedPart :: h.options.map TcpOption.serialize ++ [padding h.optionsLen]

theorem layout_append (i : Nat) (ws : List (List Byte)) (w : List Byte) :
    layout i (ws ++ [w]) = layout i ws ++ [(i + ws.flatten.length, w)] := by
  induction ws generalizing i with
  | nil => rfl
  | cons v ws ih =>
    rw [cons_append, layout, ih, layout, flatten_cons, length_append, add_assoc]
    rfl

section

variable (hcounted : Counted h) (hsmall : (bytes h.options).length ≤ 40)
include hcounted hsmall

theorem Counted.serialize_eq (checksum : Option (BitVec 16)) :
    h.serialize checksum = layout 0 h.image ++
      checksum.toList.map fun checksum => (16, put (k := 2) checksum) := by
  obtain ⟨hchunks, hsum⟩ := optionChunks_eq hcounted.plain hsmall 20
  have hflat : (h.fixedPart :: h.options.map TcpOption.serialize).flatten.length =
      20 + (bytes h.options).length := by
    rw [flatten_cons, length_append, length_fixedPart, bytes, flatMap_def]
  rw [serialize, image, layout_append, hflat, hsum, hchunks, hcounted.serializedOptionsLen_eq,
    zero_add, layout, length_fixedPart]

theorem length_image : h.image.flatten.length = h.getSerializedSize := by
  have hlen := hcounted.optionsLen
  have hlength := hcounted.length
  have hsize := hcounted.getSerializedSize_eq.1
  rw [image, flatten_append, flatten_cons, length_append, length_append,
    length_fixedPart, ← flatMap_def, ← bytes, flatten_singleton, padding,
    length_replicate]
  omega

theorem written_serialize (checksum : Option (BitVec 16)) (a : Nat) :
    Written (h.serialize checksum) a ↔ a < h.getSerializedSize := by
  have hlayout : Written (layout 0 h.image) a ↔ a < h.getSerializedSize := by
    rw [written_layout, length_image hcounted hsmall, Nat.zero_add]
    exact and_iff_right (Nat.zero_le a)
  have hlarge : 20 ≤ h.getSerializedSize := by
    have hlen := hcounted.length
    have hsize := hcounted.getSerializedSize_eq.1
    omega
  rw [hcounted.serialize_eq hsmall, ← hlayout]
  constructor
  · rintro ⟨c, hc, hle, hlt⟩
    rcases mem_append.mp hc with hc | hc
    · exact ⟨c, hc, hle, hlt⟩
    · obtain ⟨value, -, rfl⟩ := mem_map.mp hc
      rw [hlayout]
      have hlt : a < 16 + 2 := hlt
      omega
  · rintro ⟨c, hc, h⟩
    exact ⟨c, mem_append_left _ hc, h⟩

/-! ## 4. What is read back -/

theorem read_serialize (before : Memory) (checksum : Option (BitVec 16)) {n : Nat}
    (hchecksum : i + n ≤ 16 ∨ 18 ≤ i) :
    read (writeAll before (h.serialize checksum)) i n =
      read (writeAll before (layout 0 h.image)) i n := by
  rw [hcounted.serialize_eq hsmall, writeAll, foldl_append]
  cases checksum with
  | none => rfl
  | some checksum =>
    refine read_write_of_disjoint (writeAll before (layout 0 h.image)) ?_
    rw [length_put]
    exact hchecksum

end

theorem flatten_image (h : TcpHeader) :
    h.image.flatten = h.fixedPart ++ bytes h.options ++ padding h.optionsLen := by
  rw [image, flatten_append, flatten_cons, flatten_singleton, bytes, flatMap_def]

theorem toNat_lengthAndFlags {length : Nat} (hlen : length < 16) (flags : BitVec 8) :
    (BitVec.ofNat 16 length <<< 12 ||| flags.setWidth 16).toNat = length * 4096 + flags.toNat := by
  have hflags : flags.toNat < 256 := flags.isLt
  rw [BitVec.toNat_or, BitVec.toNat_shiftLeft, BitVec.toNat_ofNat, BitVec.toNat_setWidth,
    Nat.mod_eq_of_lt (show length < 2 ^ 16 by omega), Nat.shiftLeft_eq,
    Nat.mod_eq_of_lt (show length * 2 ^ 12 < 2 ^ 16 by omega),
    Nat.mod_eq_of_lt (show flags.toNat < 2 ^ 16 by omega), ← Nat.shiftLeft_eq,
    ← Nat.shiftLeft_add_eq_or_of_lt (show flags.toNat < 2 ^ 12 by omega), Nat.shiftLeft_eq]

theorem readFields_serialize (hcounted : Counted h) (hsmall : (bytes h.options).length ≤ 40)
    (before : Memory) (checksum : Option (BitVec 16)) :
    readFields (writeAll before (h.serialize checksum)) =
      { h with options := [], optionsLen := 0 } := by
  have hread := read_layout before 0 h.image
  rw [flatten_image] at hread
  obtain ⟨hfixed, -⟩ := read_of_append (read_of_append hread).1
  obtain ⟨hrest, hurgent⟩ := read_of_append hfixed
  obtain ⟨hrest, -⟩ := read_of_append hrest
  obtain ⟨hrest, hwindow⟩ := read_of_append hrest
  obtain ⟨hrest, hfield⟩ := read_of_append hrest
  obtain ⟨hrest, hack⟩ := read_of_append hrest
  obtain ⟨hrest, hsequence⟩ := read_of_append hrest
  obtain ⟨hsource, hdestination⟩ := read_of_append hrest
  simp only [length_append, length_put, length_cons, length_nil, zero_add,
    Nat.reduceAdd] at hsource hdestination hsequence hack hfield hwindow hurgent
  have hsame : ∀ {i n : Nat}, i + n ≤ 16 ∨ 18 ≤ i →
      read (writeAll before (h.serialize checksum)) i n =
        read (writeAll before (layout 0 h.image)) i n :=
    read_serialize hcounted hsmall before checksum
  rw [← hsame (by decide)] at hsource hdestination hsequence hack hfield hwindow hurgent
  have hlen : h.length < 16 := by
    have := hcounted.length
    have := hcounted.optionsLen_le
    omega
  have hnat := toNat_lengthAndFlags hlen h.flags
  have hflags : h.flags.toNat < 256 := h.flags.isLt
  have hwords : (h.length * 4096 + h.flags.toNat) / 4096 = h.length := by omega
  have hlow : (BitVec.ofNat 16 h.length <<< 12 ||| h.flags.setWidth 16).setWidth 8 = h.flags := by
    refine BitVec.eq_of_toNat_eq ?_
    rw [BitVec.toNat_setWidth, hnat]
    omega
  rw [readFields, word_of_read hsource, word_of_read hdestination, word_of_read hsequence,
    word_of_read hack, word_of_read hfield, word_of_read hwindow, word_of_read hurgent]
  simp only [hnat, hwords, hlow]

/-- The header is written to as many bytes as it says, and is read back. -/
def RoundTrips (h : TcpHeader) : Prop :=
  ∀ (before : Memory) (checksum : Option (BitVec 16)),
    h.getSerializedSize = 4 * h.length ∧ h.getSerializedSize ≤ 60 ∧
      (∀ a, Written (h.serialize checksum) a ↔ a < h.getSerializedSize) ∧
      ∃ rounds, deserialize (writeAll before (h.serialize checksum)) rounds =
        some (.returned h h.getSerializedSize)

/-- What is read back of a header has its options, and one more if there is padding. -/
theorem deserialize_serialize (hcounted : Counted h) (hsmall : (bytes h.options).length ≤ 40)
    (before : Memory) (checksum : Option (BitVec 16)) :
    ∃ rounds header size, deserialize (writeAll before (h.serialize checksum)) rounds =
        some (.returned header size) ∧
      (4 ∣ (bytes h.options).length → header = h ∧ size = h.getSerializedSize) ∧
      (¬4 ∣ (bytes h.options).length → header.options = h.options ++ [.eol]) := by
  have hread := read_layout before 0 h.image
  rw [flatten_image] at hread
  obtain ⟨hrest, hpadding⟩ := read_of_append hread
  obtain ⟨-, hoptions⟩ := read_of_append hrest
  rw [length_append, length_fixedPart, zero_add] at hpadding
  rw [length_fixedPart, zero_add] at hoptions
  rw [← read_serialize hcounted hsmall before checksum (by omega)] at hoptions hpadding
  have hfields := readFields_serialize hcounted hsmall before checksum
  generalize writeAll before (h.serialize checksum) = m at hoptions hpadding hfields ⊢
  have htotal : h.optionsLen = (bytes h.options).length := by
    have := hcounted.optionsLen
    omega
  have hlength := hcounted.length
  have hlen : optionLen h.length = (23 + (bytes h.options).length) / 4 * 4 - 20 := by
    rw [optionLen, hlength]
    omega
  have hroom : (bytes h.options).length ≤ optionLen h.length := by omega
  have hzero : optionLen h.length - (bytes h.options).length ≠ 0 →
      m (20 + (bytes h.options).length) = 0 := by
    intro hne
    have hpad : padding h.optionsLen =
        0 :: List.replicate (optionLen h.length - (bytes h.options).length - 1) 0 := by
      rw [← replicate_succ, padding]
      exact congrArg (List.replicate · 0) (by omega)
    rw [hpad] at hpadding
    exact (byte_of_read_cons hpadding).1
  have hstart : ({ h with options := [], optionsLen := 0 } : TcpHeader).optionsLen +
      (bytes h.options).length < 256 := by
    show 0 + _ < 256
    omega
  have hloop := parseOptions_bytes hcounted.plain hstart
    (s := ⟨20, optionLen h.length, { h with options := [], optionsLen := 0 }⟩) hoptions hroom 2
  obtain ⟨header, size, hend, hnone, hsome⟩ := parseOptions_end (m := m)
    (s := ⟨20 + (bytes h.options).length, optionLen h.length - (bytes h.options).length,
      { h with options := [] ++ h.options, optionsLen := 0 + (bytes h.options).length }⟩) 0 hzero
  refine ⟨2 + h.options.length, header, size, ?_, fun hdvd => ?_, fun hdvd => ?_⟩
  · have hfew : ¬optionLen (readFields m).length > maxOptionsLen := by
      rw [hfields]
      show ¬optionLen h.length > 40
      omega
    rw [deserialize, if_neg hfew, hfields]
    exact hloop.trans hend
  · have hleft : optionLen h.length - (bytes h.options).length = 0 := by omega
    obtain ⟨rfl, rfl⟩ := hnone hleft
    have hsame : ({ h with
        options := [] ++ h.options
        optionsLen := 0 + (bytes h.options).length } : TcpHeader) = h := by
      rw [nil_append, zero_add, ← htotal]
    rw [hsame]
    exact ⟨rfl, rfl⟩
  · exact hsome (by show optionLen h.length - (bytes h.options).length ≠ 0; omega)

theorem roundTrips_iff (hbuilt : Built h) :
    RoundTrips h ↔ (bytes h.options).length ≤ 40 ∧ 4 ∣ (bytes h.options).length := by
  have hcounted := hbuilt.counted
  obtain ⟨hsize, hmax⟩ := hcounted.getSerializedSize_eq
  constructor
  · intro htrip
    obtain ⟨-, -, hwritten, rounds, hparse⟩ := htrip (fun _ => 0) none
    have hsmall : (bytes h.options).length ≤ 40 := by
      rcases hcounted.small with hsmall | ⟨op, hop, hlarge⟩
      · exact hsmall
      · obtain ⟨j, hj⟩ := mem_optionChunks (i := 20) hop
        have hbeyond : Written (h.serialize none) (j + 60) :=
          ⟨(j, op.serialize), mem_append_left _ (mem_append_left _
            (mem_cons_of_mem _ hj)), Nat.le_add_right j 60, Nat.add_lt_add_left hlarge j⟩
        have := (hwritten (j + 60)).mp hbeyond
        omega
    refine ⟨hsmall, ?_⟩
    by_contra hdvd
    obtain ⟨rounds', header, size, hparse', -, hsome⟩ :=
      deserialize_serialize hcounted hsmall (fun _ => 0) none
    obtain ⟨rfl, -⟩ := Outcome.returned.inj (deserialize_unique hparse hparse')
    exact absurd (congrArg List.length (hsome hdvd)) (by simp)
  · rintro ⟨hsmall, hdvd⟩ before checksum
    obtain ⟨rounds, header, size, hparse, hsame, -⟩ :=
      deserialize_serialize hcounted hsmall before checksum
    obtain ⟨rfl, rfl⟩ := hsame hdvd
    exact ⟨hsize, hmax, written_serialize hcounted hsmall checksum, rounds, hparse⟩

/-- Reading ends unless there is an empty option of an unknown kind, and a header with appended
options is read back exactly when they need no padding. -/
theorem ends_and_round_trips_iff (m : Memory) (h : TcpHeader) (hbuilt : Built h) :
    (Ends m ↔ ¬HasEmptyUnknown m) ∧
      (RoundTrips h ↔ (bytes h.options).length ≤ 40 ∧ 4 ∣ (bytes h.options).length) :=
  ⟨ends_iff m, roundTrips_iff hbuilt⟩

def emptyHeader : TcpHeader where
  sourcePort := 49153
  destinationPort := 80
  sequenceNumber := ⟨0⟩
  ackNumber := ⟨0⟩
  flags := 2
  windowSize := 65535
  urgentPointer := 0

/-- The options of a SYN: together they have 16 bytes. -/
theorem ends_and_round_trips_iff_syn :
    RoundTrips ((((emptyHeader.appendOption (.mss 536)).1.appendOption .sackPermitted).1.appendOption
      (.ts 1 0)).1) := by
  have hbuilt : Built ((((emptyHeader.appendOption (.mss 536)).1.appendOption
      .sackPermitted).1.appendOption (.ts 1 0)).1) :=
    .append (.append (.append (.new emptyHeader rfl rfl rfl) trivial rfl) trivial rfl) trivial rfl
  exact (ends_and_round_trips_iff (fun _ => 0) _ hbuilt).2.mpr (by decide)

/-- A header of six words whose option has kind 6 and length 0. -/
def emptyOption : Memory := fun a => if a = 12 then 0x60 else if a = 20 then 6 else 0

theorem reads_without_end : ¬((∀ m, Ends m) ∧ ∀ h, Built h → RoundTrips h) := by
  rintro ⟨hends, -⟩
  have hlen : optionLen (readFields emptyOption).length = 4 := by decide
  refine (ends_iff emptyOption).mp (hends emptyOption) ⟨hlen.trans_le (by decide), ?_⟩
  rw [hlen]
  exact .here (by decide) ⟨by decide, by decide⟩

end TcpHeader

end MoeJit.Tcp
