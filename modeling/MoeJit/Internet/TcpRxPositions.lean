import MoeJit.Internet.TcpRxBuffer

/-!
# Positions on a line

A position on a line has a sequence number, that of the start and as many more. In a window of half
the space sequence numbers are ordered as positions are (`agrees_position`), so that the loops of the
buffer do the same with both.
-/

namespace MoeJit.Tcp

open SequenceNumber List
open SequenceNumber32 (add_assoc add_ofNat_toNat add_sub add_sub_self add_zero gt_iff lt_eq_gt
  sub_def)

/-! ## 1. Maps that keep the order -/

section

variable {σ τ β γ : Type}

def mapData (f : σ → τ) (g : β → γ) (data : List (σ × List β)) : List (τ × List γ) :=
  data.map fun packet => (f packet.1, packet.2.map g)

def mapBlocks (f : σ → τ) (blocks : List (σ × σ)) : List (τ × τ) :=
  blocks.map fun block => (f block.1, f block.2)

def Trimmed.map (f : σ → τ) (g : β → γ) (trimmed : Trimmed σ β) : Trimmed τ γ where
  headSeq := f trimmed.headSeq
  tailSeq := f trimmed.tailSeq
  size := trimmed.size
  data := mapData f g trimmed.data

def TcpRxBuffer.map (f : σ → τ) (g : β → γ) (st : TcpRxBuffer σ β) : TcpRxBuffer τ γ :=
  { st with
    nextRxSeq := f st.nextRxSeq
    finSeq := f st.finSeq
    data := mapData f g st.data
    sackList := mapBlocks f st.sackList }

variable (f : σ → τ) (g : β → γ) (st : TcpRxBuffer σ β)

@[simp] theorem map_nextRxSeq : (st.map f g).nextRxSeq = f st.nextRxSeq := rfl

@[simp] theorem map_gotFin : (st.map f g).gotFin = st.gotFin := rfl

@[simp] theorem map_maxBuffer : (st.map f g).maxBuffer = st.maxBuffer := rfl

@[simp] theorem map_size : (st.map f g).size = st.size := rfl

@[simp] theorem map_availBytes : (st.map f g).availBytes = st.availBytes := rfl

@[simp] theorem map_data : (st.map f g).data = mapData f g st.data := rfl

@[simp] theorem map_sackList : (st.map f g).sackList = mapBlocks f st.sackList := rfl

theorem map_update (nextRxSeq : σ) (size availBytes : Nat) (data : List (σ × List β))
    (sackList : List (σ × σ)) :
    { st.map f g with
      nextRxSeq := f nextRxSeq
      size := size
      availBytes := availBytes
      data := mapData f g data
      sackList := mapBlocks f sackList } =
    ({ st with
      nextRxSeq := nextRxSeq
      size := size
      availBytes := availBytes
      data := data
      sackList := sackList } : TcpRxBuffer σ β).map f g := rfl

end

/-- In a window, numbers are ordered as those that they are taken to. -/
structure Agrees {σ τ : Type} [DecidableEq σ] [SequenceNumber σ] [DecidableEq τ] [SequenceNumber τ]
    (f : σ → τ) (window : σ → Prop) : Prop where
  add : ∀ x n, SequenceNumber.add (f x) n = f (SequenceNumber.add x n)
  gt : ∀ {x y}, window x → window y → SequenceNumber.gt (f x) (f y) = SequenceNumber.gt x y
  inj : ∀ {x y}, window x → window y → (f x = f y ↔ x = y)
  sub : ∀ {x y}, window x → window y → SequenceNumber.gt y x = false →
    SequenceNumber.sub (f x) (f y) = SequenceNumber.sub x y

variable {σ τ β γ : Type} [DecidableEq σ] [SequenceNumber σ] [DecidableEq τ] [SequenceNumber τ]
  {f : σ → τ} {g : β → γ} {window : σ → Prop}

namespace Agrees

variable (e : Agrees f window) {x y : σ}

include e

theorem ge (hx : window x) (hy : window y) : SequenceNumber.ge (f x) (f y) = SequenceNumber.ge x y := by
  rw [SequenceNumber.ge, SequenceNumber.ge, e.gt hx hy, decide_eq_decide.mpr (e.inj hx hy)]

theorem le (hx : window x) (hy : window y) : SequenceNumber.le (f x) (f y) = SequenceNumber.le x y := by
  rw [SequenceNumber.le, SequenceNumber.le, e.gt hx hy]

theorem lt (hx : window x) (hy : window y) : SequenceNumber.lt (f x) (f y) = SequenceNumber.lt x y := by
  rw [SequenceNumber.lt, SequenceNumber.lt, e.gt hx hy,
    decide_eq_decide.mpr (not_congr (e.inj hx hy))]

end Agrees

/-- The numbers of all bytes of the packets, and those after the last ones, are in a window. -/
def InWindow (window : σ → Prop) (data : List (σ × List β)) : Prop :=
  ∀ packet ∈ data, window packet.1 ∧ ∀ n ≤ packet.2.length, window (add packet.1 n)

/-- Both ends of all blocks are in a window. -/
def BlocksInWindow (window : σ → Prop) (blocks : List (σ × σ)) : Prop :=
  ∀ block ∈ blocks, window block.1 ∧ window block.2

/-! ## 2. The SACK list -/

section

omit [SequenceNumber σ]

variable {begin : σ × σ} {blocks : List (σ × σ)}

/-- The block that touches is taken from the others, and merged. -/
theorem mergeFirst_spec {merged : σ × σ} {rest : List (σ × σ)}
    (h : mergeFirst begin blocks = some (merged, rest)) :
    rest.Sublist blocks ∧ ∃ current, blocks.Perm (current :: rest) ∧
      ((begin.1 = current.2 ∧ merged = (current.1, begin.2)) ∨
        (begin.2 = current.1 ∧ merged = (begin.1, current.2))) := by
  induction blocks generalizing rest with
  | nil => cases h
  | cons current blocks ih =>
    rw [mergeFirst] at h
    split at h
    · next htouch =>
      cases h
      exact ⟨sublist_cons_self _ _, current, List.Perm.refl _, .inl ⟨htouch, rfl⟩⟩
    · split at h
      · next htouch =>
        cases h
        exact ⟨sublist_cons_self _ _, current, List.Perm.refl _, .inr ⟨htouch, rfl⟩⟩
      · obtain ⟨found, hfound, heq⟩ := Option.map_eq_some_iff.mp h
        cases heq
        obtain ⟨hsub, other, hperm, hmerged⟩ := ih hfound
        exact ⟨hsub.cons_cons current, other, (hperm.cons current).trans (List.Perm.swap _ _ _),
          hmerged⟩

theorem mergeFirst_eq_none (h : mergeFirst begin blocks = none) :
    ∀ block ∈ blocks, begin.1 ≠ block.2 ∧ begin.2 ≠ block.1 := by
  induction blocks with
  | nil => exact fun _ h => absurd h not_mem_nil
  | cons current blocks ih =>
    rw [mergeFirst] at h
    split at h
    · cases h
    · next hleft =>
      split at h
      · cases h
      · next hright =>
        exact forall_mem_cons.mpr ⟨⟨hleft, hright⟩, ih (Option.map_eq_none_iff.mp h)⟩

/-- What holds of two blocks that touch and then of the merged one holds of all blocks. -/
theorem mergeBlocks_forall {p : σ × σ → Prop} (hmerge : ∀ {a b c}, p (a, b) → p (b, c) → p (a, c))
    {fuel : Nat} (hbegin : p begin) (hblocks : ∀ block ∈ blocks, p block) :
    ∀ block ∈ mergeBlocks fuel begin blocks, p block := by
  induction fuel generalizing begin blocks with
  | zero => exact forall_mem_cons.mpr ⟨hbegin, hblocks⟩
  | succ fuel ih =>
    rw [mergeBlocks]
    split
    · exact forall_mem_cons.mpr ⟨hbegin, hblocks⟩
    · next merged rest hfirst =>
      obtain ⟨hsub, current, hperm, htouch⟩ := mergeFirst_spec hfirst
      have hcur := hblocks current (hperm.mem_iff.mpr mem_cons_self)
      refine ih ?_ fun block hblock => hblocks block (hsub.subset hblock)
      rcases htouch with ⟨heq, rfl⟩ | ⟨heq, rfl⟩
      · refine hmerge (b := current.2) hcur ?_
        rw [← heq]
        exact hbegin
      · refine hmerge (b := current.1) ?_ hcur
        rw [← heq]
        exact hbegin

theorem updateSackList_forall {p : σ × σ → Prop}
    (hmerge : ∀ {a b c}, p (a, b) → p (b, c) → p (a, c)) {head tail : σ} (hnew : p (head, tail))
    (hblocks : ∀ block ∈ blocks, p block) : ∀ block ∈ updateSackList head tail blocks, p block := by
  have hmerged : ∀ block ∈ mergeBlocks blocks.length (head, tail) blocks, p block :=
    mergeBlocks_forall hmerge hnew hblocks
  unfold updateSackList
  dsimp only
  split
  · exact fun block hblock => hmerged block (mem_of_mem_dropLast hblock)
  · exact hmerged

end

section

variable (e : Agrees f window)

include e

variable {blocks : List (σ × σ)} {head tail seq : σ} {data : List (σ × List β)}

theorem mergeFirst_map {begin : σ × σ} (hbegin : window begin.1 ∧ window begin.2)
    (hblocks : BlocksInWindow window blocks) :
    mergeFirst (f begin.1, f begin.2) (mapBlocks f blocks) =
      (mergeFirst begin blocks).map fun found =>
        ((f found.1.1, f found.1.2), mapBlocks f found.2) := by
  induction blocks with
  | nil => rfl
  | cons current rest ih =>
    obtain ⟨hcur, hrest⟩ := forall_mem_cons.mp hblocks
    unfold mapBlocks
    rw [map_cons, mergeFirst, mergeFirst,
      if_congr (e.inj hbegin.1 hcur.2) rfl (if_congr (e.inj hbegin.2 hcur.1) rfl rfl)]
    split
    · rfl
    · split
      · rfl
      · have ih := ih hrest
        unfold mapBlocks at ih
        rw [ih, Option.map_map, Option.map_map]
        rfl

theorem mergeBlocks_map {fuel : Nat} {begin : σ × σ} (hbegin : window begin.1 ∧ window begin.2)
    (hblocks : BlocksInWindow window blocks) :
    mergeBlocks fuel (f begin.1, f begin.2) (mapBlocks f blocks) =
      mapBlocks f (mergeBlocks fuel begin blocks) := by
  induction fuel generalizing begin blocks with
  | zero => rfl
  | succ fuel ih =>
    rw [mergeBlocks, mergeBlocks, mergeFirst_map e hbegin hblocks]
    cases hfirst : mergeFirst begin blocks with
    | none => rfl
    | some found =>
      obtain ⟨hsub, current, hperm, htouch⟩ := mergeFirst_spec hfirst
      have hcur := hblocks current (hperm.mem_iff.mpr mem_cons_self)
      refine ih ?_ fun block hblock => hblocks block (hsub.subset hblock)
      rcases htouch with ⟨-, heq⟩ | ⟨-, heq⟩
      · rw [heq]
        exact ⟨hcur.1, hbegin.2⟩
      · rw [heq]
        exact ⟨hbegin.1, hcur.2⟩

theorem updateSackList_map (hhead : window head) (htail : window tail)
    (hblocks : BlocksInWindow window blocks) :
    updateSackList (f head) (f tail) (mapBlocks f blocks) =
      mapBlocks f (updateSackList head tail blocks) := by
  have hmerge : mergeBlocks blocks.length (f head, f tail) (mapBlocks f blocks) =
      mapBlocks f (mergeBlocks blocks.length (head, tail) blocks) :=
    have hnew : window (head, tail).1 ∧ window (head, tail).2 := ⟨hhead, htail⟩
    mergeBlocks_map e hnew hblocks
  have hlen : ∀ l : List (σ × σ), (mapBlocks f l).length = l.length := fun l => length_map _
  unfold updateSackList
  dsimp only at hmerge ⊢
  rw [hlen, hmerge, hlen]
  split
  · exact map_dropLast.symm
  · rfl

theorem clearSackList_map (hseq : window seq) (hblocks : BlocksInWindow window blocks) :
    clearSackList (f seq) (mapBlocks f blocks) = mapBlocks f (clearSackList seq blocks) := by
  unfold clearSackList mapBlocks
  rw [filter_map]
  refine congrArg (List.map _) (filter_congr fun block hblock => ?_)
  rw [Function.comp_apply, e.le (hblocks block hblock).2 hseq]

omit [DecidableEq σ] e in
theorem clearSackList_window (hblocks : BlocksInWindow window blocks) :
    BlocksInWindow window (clearSackList seq blocks) :=
  fun block hblock => hblocks block (mem_filter.mp hblock).1

/-! ## 3. The loops of the buffer -/

theorem insertPacket_map {p : List β} (hseq : window seq) (hdata : ∀ packet ∈ data, window packet.1)
    :
    insertPacket (f seq) (p.map g) (mapData f g data) = mapData f g (insertPacket seq p data) := by
  induction data with
  | nil => rfl
  | cons packet rest ih =>
    obtain ⟨hpkt, hrest⟩ := forall_mem_cons.mp hdata
    have ih := ih hrest
    unfold mapData at ih ⊢
    rw [map_cons, insertPacket, insertPacket, e.lt hseq hpkt, e.lt hpkt hseq]
    split
    · rfl
    · split
      · rw [ih]
        rfl
      · rfl

omit e in
theorem mem_insertPacket_fst {p : List β} {packet : σ × List β}
    (h : packet ∈ insertPacket seq p data) :
    packet.1 = seq ∨ ∃ other ∈ data, packet.1 = other.1 := by
  induction data with
  | nil => exact .inl (congrArg Prod.fst (mem_singleton.mp h))
  | cons first rest ih =>
    rw [insertPacket] at h
    split at h
    · rcases mem_cons.mp h with rfl | h
      · exact .inl rfl
      · exact .inr ⟨packet, h, rfl⟩
    · split at h
      · rcases mem_cons.mp h with rfl | h
        · exact .inr ⟨packet, mem_cons_self, rfl⟩
        · exact (ih h).imp_right fun ⟨other, hother, heq⟩ =>
            ⟨other, mem_cons_of_mem first hother, heq⟩
      · rcases mem_cons.mp h with rfl | h
        · exact .inr ⟨first, mem_cons_self, rfl⟩
        · exact .inr ⟨packet, mem_cons_of_mem first h, rfl⟩

theorem removeOverlap_map {size : Nat} (hhead : window head) (htail : window tail)
    (hdata : InWindow window data) :
    removeOverlap (f head) (f tail) size (mapData f g data) =
      (removeOverlap head tail size data).map f g := by
  induction data generalizing head tail size with
  | nil => rfl
  | cons packet rest ih =>
    obtain ⟨⟨hfirst, hlast⟩, hrest⟩ := forall_mem_cons.mp hdata
    have hlast := hlast packet.2.length le_rfl
    unfold mapData at ih ⊢
    rw [map_cons, removeOverlap, removeOverlap]
    dsimp only
    rw [e.le hfirst htail, length_map, e.add, e.gt hlast hhead, e.gt hfirst hhead,
      e.lt hlast htail, e.le hfirst hhead, e.ge hlast htail]
    split
    · split
      · split
        · exact ih hhead htail hrest
        · rw [← apply_ite f, ← apply_ite f, ih (by split <;> assumption) (by split <;> assumption)
            hrest]
          rfl
      · rw [ih hhead htail hrest]
        rfl
    · rfl

omit e in
theorem removeOverlap_window (hhead : window head) (htail : window tail)
    (hdata : InWindow window data) (size : Nat) :
    window (removeOverlap head tail size data).headSeq ∧
      window (removeOverlap head tail size data).tailSeq ∧
      InWindow window (removeOverlap head tail size data).data := by
  induction data generalizing head tail size with
  | nil => exact ⟨hhead, htail, hdata⟩
  | cons packet rest ih =>
    obtain ⟨⟨hfirst, hlast⟩, hrest⟩ := forall_mem_cons.mp hdata
    have hkeep : ∀ {trimmed : Trimmed σ β}, window trimmed.headSeq ∧ window trimmed.tailSeq ∧
        InWindow window trimmed.data → window trimmed.headSeq ∧ window trimmed.tailSeq ∧
        InWindow window (packet :: trimmed.data) := fun ⟨h₁, h₂, h₃⟩ =>
      ⟨h₁, h₂, forall_mem_cons.mpr ⟨⟨hfirst, hlast⟩, h₃⟩⟩
    have hlast := hlast packet.2.length le_rfl
    rw [removeOverlap]
    dsimp only
    split
    · split
      · split
        · exact ih hhead htail hrest _
        · exact hkeep (ih (by split <;> assumption) (by split <;> assumption) hrest size)
      · exact hkeep (ih hhead htail hrest size)
    · exact ⟨hhead, htail, hdata⟩

omit e in
theorem trimToWindow_window {st : TcpRxBuffer σ β} (hhead : window head) (htail : window tail)
    (hnext : window st.nextRxSeq)
    (hmax : ∀ packet ∈ st.data.head?, window (add packet.1 st.maxBuffer)) :
    window (st.trimToWindow head tail).1 ∧ window (st.trimToWindow head tail).2 := by
  have hite : ∀ {c : Bool} {x y : σ}, window x → window y → window (if c then x else y) := by
    intro c x y hx hy
    split
    · exact hx
    · exact hy
  have hhead' := hite (c := lt head st.nextRxSeq) hnext hhead
  unfold TcpRxBuffer.trimToWindow
  cases hdata : st.data with
  | nil => exact ⟨hhead', htail⟩
  | cons packet rest =>
    have htail' := hite (c := lt (add packet.1 st.maxBuffer) tail)
      (hmax packet (by rw [hdata]; rfl)) htail
    exact ⟨hite htail' hhead', htail'⟩

theorem trimToWindow_map {st : TcpRxBuffer σ β} (hhead : window head) (htail : window tail)
    (hnext : window st.nextRxSeq)
    (hmax : ∀ packet ∈ st.data.head?, window (add packet.1 st.maxBuffer)) :
    (st.map f g).trimToWindow (f head) (f tail) =
      (f (st.trimToWindow head tail).1, f (st.trimToWindow head tail).2) := by
  have hhead' : window (if lt head st.nextRxSeq then st.nextRxSeq else head) := by
    split
    · exact hnext
    · exact hhead
  unfold TcpRxBuffer.trimToWindow
  rw [map_data, map_nextRxSeq, e.lt hhead hnext, ← apply_ite f]
  cases hdata : st.data with
  | nil => rfl
  | cons packet rest =>
    have hmax := hmax packet (by rw [hdata]; rfl)
    have htail' : window (if lt (add packet.1 st.maxBuffer) tail then
        add packet.1 st.maxBuffer else tail) := by
      split
      · exact hmax
      · exact htail
    have hcons : mapData f g (packet :: rest) = (f packet.1, packet.2.map g) :: mapData f g rest := rfl
    rw [hcons, map_maxBuffer]
    dsimp only
    rw [e.add, e.lt hmax htail, ← apply_ite f, e.lt htail' hhead', ← apply_ite f]

theorem advance_map {nextRxSeq : σ} {availBytes : Nat} {sackList : List (σ × σ)}
    (hnext : window nextRxSeq) (hsack : BlocksInWindow window sackList)
    (hdata : InWindow window data) :
    advance (f nextRxSeq) availBytes (mapBlocks f sackList) (mapData f g data) =
      (f (advance nextRxSeq availBytes sackList data).1,
        (advance nextRxSeq availBytes sackList data).2.1,
        mapBlocks f (advance nextRxSeq availBytes sackList data).2.2) := by
  induction data generalizing nextRxSeq availBytes sackList with
  | nil => rfl
  | cons packet rest ih =>
    obtain ⟨⟨hfirst, hlast⟩, hrest⟩ := forall_mem_cons.mp hdata
    have hlast := hlast packet.2.length le_rfl
    unfold mapData at ih ⊢
    rw [map_cons, advance, advance]
    dsimp only
    rw [e.lt hfirst hnext, e.gt hfirst hnext, length_map, e.add]
    split
    · exact ih hnext hsack hrest
    · split
      · rfl
      · rw [clearSackList_map e hlast hsack, ih hlast (clearSackList_window hsack) hrest]

theorem takeFront_map (extractSize : Nat) (hdata : InWindow window data) :
    takeFront extractSize (mapData f g data) =
      ((takeFront extractSize data).1.map g, mapData f g (takeFront extractSize data).2) := by
  induction data generalizing extractSize with
  | nil => rfl
  | cons packet rest ih =>
    obtain ⟨⟨hfirst, hlast⟩, hrest⟩ := forall_mem_cons.mp hdata
    have hmap : mapData f g (packet :: rest) = (f packet.1, packet.2.map g) :: mapData f g rest := rfl
    rw [hmap, takeFront, takeFront, length_map]
    split
    · rfl
    · split
      · dsimp only
        rw [ih _ hrest, map_append]
      · next hle =>
        dsimp only
        have hwindow : ∀ other ∈ packet :: rest, window other.1 := fun other hother =>
          (hdata other hother).1
        have hsplit := hlast extractSize (Nat.le_of_not_le hle)
        rw [← hmap, e.add, ← map_drop, insertPacket_map e hsplit hwindow, ← map_take]
        refine Prod.ext rfl ?_
        unfold mapData
        dsimp only
        rw [filter_map]
        refine congrArg (List.map _) (filter_congr fun other hother => ?_)
        have hother : window other.1 := by
          rcases mem_insertPacket_fst hother with heq | ⟨packet', hmem, heq⟩
          · rw [heq]
            exact hsplit
          · rw [heq]
            exact hwindow packet' hmem
        exact decide_eq_decide.mpr (not_congr (e.inj hother hfirst))

end

/-! ## 4. Positions -/

@[simp] theorem int_gt {a b : ℤ} : gt a b = true ↔ b < a := decide_eq_true_iff

@[simp] theorem int_le {a b : ℤ} : le a b = true ↔ a ≤ b := by
  rw [le, Bool.not_eq_true', Bool.eq_false_iff, ne_eq, int_gt, not_lt]

@[simp] theorem int_ge {a b : ℤ} : ge a b = true ↔ b ≤ a := by
  rw [ge, Bool.or_eq_true, int_gt, decide_eq_true_eq, le_iff_lt_or_eq, eq_comm (a := a)]

@[simp] theorem int_lt {a b : ℤ} : lt a b = true ↔ a < b := by
  rw [lt, Bool.and_eq_true, Bool.not_eq_true', Bool.eq_false_iff, ne_eq, int_gt, decide_eq_true_eq,
    not_lt, lt_iff_le_and_ne]

@[simp] theorem int_add (a : ℤ) (n : Nat) : add a n = a + n := rfl

@[simp] theorem int_sub (a b : ℤ) : sub a b = (a - b).toNat := rfl

/-- The sequence number of a position. -/
def position (s : SequenceNumber32) (x : ℤ) : SequenceNumber32 := s + BitVec.ofInt 32 x

/-- The positions from one on that are less than half the space ahead. -/
def Window (low x : ℤ) : Prop := low ≤ x ∧ x < low + 2 ^ 31

section

variable (s : SequenceNumber32)
include s

@[simp] theorem position_zero : position s 0 = s := add_zero s

theorem position_add (x : ℤ) (n : Nat) : add (position s x) n = position s (x + n) := by
  show s + BitVec.ofInt 32 x + BitVec.ofNat 32 n = s + BitVec.ofInt 32 (x + n)
  rw [add_assoc, BitVec.ofInt_add, BitVec.ofInt_natCast]

theorem position_sub (x y : ℤ) : sub (position s x) (position s y) = ((x - y) % 2 ^ 32).toNat := by
  have hadd : position s x = position s y + BitVec.ofInt 32 (x - y) := by
    unfold position
    rw [add_assoc, ← BitVec.ofInt_add, add_sub_cancel]
  show (position s x - position s y).toNat = _
  rw [hadd, add_sub_self, BitVec.toNat_ofInt]
  rfl

/-- Every sequence number is that of a position in the space from any one on. -/
theorem exists_position (low : ℤ) (a : SequenceNumber32) :
    ∃ x, low ≤ x ∧ x < low + 2 ^ 32 ∧ a = position s x := by
  have hlt := (a - position s low).isLt
  refine ⟨low + (a - position s low).toNat, by omega, by omega, ?_⟩
  have hadd := position_add s low (a - position s low).toNat
  rw [← hadd]
  show a = position s low + BitVec.ofNat 32 _
  rw [add_ofNat_toNat, add_sub]

/-- A number is past another one that is less than half the space away if its position is. -/
theorem position_gt {x y : ℤ} (hx : x < y + 2 ^ 31) (hy : y < x + 2 ^ 31) :
    gt (position s x) (position s y) = decide (y < x) := by
  have hsub : (position s x - position s y).toNat = ((x - y) % 2 ^ 32).toNat := position_sub s x y
  show (position s x).gt (position s y) = _
  rw [Bool.eq_iff_iff, gt_iff, hsub, decide_eq_true_eq]
  omega

/-- A number is at most half the space past another one, and what it is not past is at most as far
ahead of it. -/
theorem position_distance (x y : ℤ) :
    if gt (position s x) (position s y) then 0 < (x - y) % 2 ^ 32 ∧ (x - y) % 2 ^ 32 ≤ 2 ^ 31
    else (x - y) % 2 ^ 32 = 0 ∨ 2 ^ 31 ≤ (x - y) % 2 ^ 32 := by
  have hsub : (position s x - position s y).toNat = ((x - y) % 2 ^ 32).toNat := position_sub s x y
  have hgt : gt (position s x) (position s y) = true ↔ _ := gt_iff (position s x) (position s y)
  rw [hsub] at hgt
  split
  · next h =>
    rcases hgt.mp h with h | h
    · omega
    · omega
  · next h =>
    rw [hgt, not_or] at h
    omega

end

theorem number_lt (a b : SequenceNumber32) : lt a b = gt b a := lt_eq_gt a b

theorem position_inj (s : SequenceNumber32) {x y : ℤ} (hx : x < y + 2 ^ 32) (hy : y < x + 2 ^ 32) :
    position s x = position s y ↔ x = y := by
  refine ⟨fun h => ?_, fun h => h ▸ rfl⟩
  have hsub := position_sub s x y
  rw [h] at hsub
  have hself : sub (position s y) (position s y) = 0 := by
    show (position s y - position s y).toNat = 0
    rw [sub_def, BitVec.sub_self]
    rfl
  rw [hself] at hsub
  omega

theorem agrees_position (s : SequenceNumber32) (low : ℤ) : Agrees (position s) (Window low) where
  add := position_add s
  gt {x y} hx hy := by
    unfold Window at hx hy
    exact position_gt s (by omega) (by omega)
  inj {x y} hx hy := by
    unfold Window at hx hy
    exact position_inj s (by omega) (by omega)
  sub {x y} hx hy hle := by
    unfold Window at hx hy
    rw [← Bool.not_eq_true, int_gt] at hle
    rw [position_sub, int_sub, Int.emod_eq_of_lt (by omega) (by omega)]

end MoeJit.Tcp
