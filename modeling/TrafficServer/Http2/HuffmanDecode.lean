/-
What `huffman_decode` accepts (`proxy/http2/HuffmanCodec.cc`).

`make_huffman_tree` builds a complete tree: every node that is no leaf has both children, so that the walk never follows a null pointer, and
its leaves are the codes of the table. Every bit string is then a sequence of codes, in one way, and some bits that lead to no leaf
(`exists_parse`, `parse_prefix`).

`huffman_canonical_iff`: what is accepted is what `huffman_encode` writes, apart from the single byte `0xff` and from strings with the code of
the end of the string. That code has a leaf like the others, and its entry, 256, is the byte 0. `huffmanDecode_bound` and
`length_huffmanEncode_le` bound what is written.
-/
import TrafficServer.Http2.Huffman

namespace TrafficServer.Http2.Huffman

open TrafficServer.Bits

/-! ## The tree -/

/-- a leaf, or a node with two children, down to the leaves -/
def Node.full : Node → Bool
  | .null => false
  | .node left right _ leafNode => leafNode || (left.full && right.full)

/-- the byte of the leaf that the bits lead to -/
def Node.leafAt : Node → List Bool → Option (BitVec 8)
  | .null, _ => none
  | .node _ _ asciiCode leafNode, [] => if leafNode then some asciiCode else none
  | .node left right _ _, bit :: bits => leafAt (if bit then right else left) bits

theorem Node.leafAt_cons (t : Node) (b : Bool) (bits : List Bool) : t.leafAt (b :: bits) = (t.child b).leafAt bits := by
  cases t with
  | null => cases bits <;> simp [Node.leafAt, Node.child]
  | node => rfl

theorem Node.leafAt_null (bits : List Bool) : Node.null.leafAt bits = none := by
  cases bits <;> rfl

theorem and_shiftLeft_ne_zero (n i : ℕ) : n &&& (1 <<< i) ≠ 0 ↔ n.testBit i = true := by
  rw [Nat.one_shiftLeft, Nat.and_two_pow]
  cases n.testBit i <;> simp

theorem leafAt_new (bits : List Bool) : makeHuffmanTreeNode.leafAt bits = none := by
  cases bits with
  | nil => rfl
  | cons b bits => cases b <;> exact Node.leafAt_null bits

/-- a node is made before the next step if it is missing -/
theorem Node.insert_null (codeAsHex i bitLen : ℕ) :
    Node.null.insert codeAsHex i (bitLen + 1) = makeHuffmanTreeNode.insert codeAsHex i (bitLen + 1) := rfl

/-- an entry is a leaf at the end of its code, and the other leaves stay -/
theorem Node.leafAt_insert (codeAsHex i : ℕ) (bitLen : ℕ) (t : Node) (bits : List Bool) :
    (t.insert codeAsHex i bitLen).leafAt bits = if bits = msb bitLen codeAsHex then some (BitVec.ofNat 8 i) else t.leafAt bits := by
  induction bitLen generalizing t bits with
  | zero => cases t <;> cases bits <;> simp [Node.insert, Node.leafAt, Node.leafAt_null, msb]
  | succ bitLen ih =>
    have hnode : ∀ left right asciiCode leafNode, ((Node.node left right asciiCode leafNode).insert codeAsHex i (bitLen + 1)).leafAt bits =
        if bits = msb (bitLen + 1) codeAsHex then some (BitVec.ofNat 8 i) else (Node.node left right asciiCode leafNode).leafAt bits := by
      intro left right asciiCode leafNode
      simp only [Node.insert, and_shiftLeft_ne_zero]
      by_cases hbit : codeAsHex.testBit bitLen = true
      · have hmsb : msb (bitLen + 1) codeAsHex = true :: msb bitLen codeAsHex := by rw [msb, hbit]
        rw [if_pos hbit, hmsb]
        cases bits with
        | nil => rfl
        | cons b bits => cases b <;> simp [Node.leafAt, ih]
      · have hmsb : msb (bitLen + 1) codeAsHex = false :: msb bitLen codeAsHex := by rw [msb, Bool.eq_false_of_not_eq_true hbit]
        rw [if_neg hbit, hmsb]
        cases bits with
        | nil => rfl
        | cons b bits => cases b <;> simp [Node.leafAt, ih]
    cases t with
    | null => rw [Node.insert_null, makeHuffmanTreeNode, hnode, ← makeHuffmanTreeNode, leafAt_new, Node.leafAt_null]
    | node left right asciiCode leafNode => exact hnode left right asciiCode leafNode

theorem leafAt_foldl {l : List (HuffmanEntry × ℕ)} {t : Node} {bits : List Bool} {c : BitVec 8}
    (h : (l.foldl (fun root e => root.insert e.1.codeAsHex e.2 e.1.bitLen) t).leafAt bits = some c) :
    (∃ e ∈ l, bits = msb e.1.bitLen e.1.codeAsHex ∧ c = BitVec.ofNat 8 e.2) ∨ t.leafAt bits = some c := by
  induction l generalizing t with
  | nil => exact Or.inr h
  | cons e l ih =>
    rcases ih h with ⟨e', he', heq⟩ | hleaf
    · exact Or.inl ⟨e', List.mem_cons_of_mem e he', heq⟩
    · rw [Node.leafAt_insert] at hleaf
      by_cases hbits : bits = msb e.1.bitLen e.1.codeAsHex
      · rw [if_pos hbits] at hleaf
        exact Or.inl ⟨e, List.mem_cons_self, hbits, (Option.some.inj hleaf).symm⟩
      · rw [if_neg hbits] at hleaf
        exact Or.inr hleaf

theorem length_huffmanTable : huffmanTable.length = 257 := by decide +kernel

/-- the end of the string: 30 ones -/
theorem huffmanTable_eos : huffmanTable.getD 256 default = ⟨0x3fffffff, 30⟩ := rfl

theorem five_le_symBits {i : ℕ} (hi : i < 257) : 5 ≤ (symBits i).length := by
  rw [symBits, length_msb]
  rcases Nat.lt_succ_iff_lt_or_eq.mp hi with hi | rfl
  · have hwf := entry_wf (BitVec.ofNat 8 i)
    rw [entry, BitVec.toNat_ofNat, Nat.mod_eq_of_lt hi] at hwf
    exact hwf.1
  · rw [huffmanTable_eos]
    decide

/-- the leaves are the entries of the table -/
theorem leafAt_tree {bits : List Bool} {c : BitVec 8} (h : makeHuffmanTree.leafAt bits = some c) :
    ∃ i < 257, bits = symBits i ∧ c = BitVec.ofNat 8 i := by
  unfold makeHuffmanTree at h
  rcases leafAt_foldl h with ⟨⟨e, i⟩, he, hbits, hc⟩ | hnone
  · have hget : huffmanTable[i]? = some e := List.mk_mem_zipIdx_iff_getElem?.mp he
    have hlen : i < 257 := length_huffmanTable ▸ (List.getElem?_eq_some_iff.mp hget).1
    refine ⟨i, hlen, ?_, hc⟩
    rw [hbits, symBits, List.getD_eq_getElem?_getD, hget]
    rfl
  · rw [leafAt_new] at hnone
    cases hnone

theorem tree_full : makeHuffmanTree.full = true := by decide +kernel

theorem tree_inner : ∃ left right asciiCode, makeHuffmanTree = .node left right asciiCode false := by
  have hleaf : makeHuffmanTree.leafAt [] = none := by
    rw [Option.eq_none_iff_forall_ne_some]
    intro c hc
    obtain ⟨i, hi, hnil, -⟩ := leafAt_tree hc
    have hfive := five_le_symBits hi
    rw [← hnil] at hfive
    cases hfive
  have hfull := tree_full
  cases htree : makeHuffmanTree with
  | null => rw [htree] at hfull; cases hfull
  | node left right asciiCode leafNode =>
    rw [htree] at hleaf
    cases leafNode with
    | false => exact ⟨left, right, asciiCode, rfl⟩
    | true => cases hleaf

/-! ## One code -/

theorem Node.leafAt_of_leadsTo {c : BitVec 8} {t : Node} {bits : List Bool} (h : t.leadsTo c bits = true) : t.leafAt bits = some c := by
  induction bits generalizing t with
  | nil => cases h
  | cons b bits ih =>
    rw [Node.leafAt_cons]
    unfold Node.leadsTo at h
    cases hchild : t.child b with
    | null => rw [hchild] at h; cases h
    | node l r a leaf =>
      rw [hchild] at h
      cases leaf with
      | true =>
        simp only [if_true, Bool.and_eq_true, List.isEmpty_iff, beq_iff_eq] at h
        obtain ⟨rfl, rfl⟩ := h
        rfl
      | false => exact ih h

/-- from a node of the complete tree the bits end on the way, or there is a code in front -/
theorem Node.walk_or_leadsTo (bits : List Bool) {l r : Node} {a : BitVec 8} (hfull : (Node.node l r a false).full = true) :
    (∃ u, (Node.node l r a false).walk bits = some u) ∨
      ∃ code rest c, bits = code ++ rest ∧ (Node.node l r a false).leadsTo c code = true := by
  induction bits generalizing l r a with
  | nil => exact Or.inl ⟨_, rfl⟩
  | cons b bits ih =>
    have hchild : ((Node.node l r a false).child b).full = true := by
      simp only [Node.full, Bool.false_or, Bool.and_eq_true] at hfull
      cases b with
      | false => exact hfull.1
      | true => exact hfull.2
    cases ht : (Node.node l r a false).child b with
    | null => rw [ht] at hchild; cases hchild
    | node l' r' a' leaf =>
      rw [ht] at hchild
      cases leaf with
      | true =>
        refine Or.inr ⟨[b], bits, a', rfl, ?_⟩
        simp [Node.leadsTo, ht]
      | false =>
        rcases ih hchild with ⟨u, hwalk⟩ | ⟨code, rest, c, rfl, hlead⟩
        · refine Or.inl ⟨u, ?_⟩
          unfold Node.walk
          rw [ht]
          exact hwalk
        · refine Or.inr ⟨b :: code, rest, c, rfl, ?_⟩
          unfold Node.leadsTo
          rw [ht]
          exact hlead

/-- no code is the start of another one -/
theorem Node.leadsTo_unique {c c' : BitVec 8} {t : Node} {code code' rest rest' : List Bool} (h : t.leadsTo c code = true)
    (h' : t.leadsTo c' code' = true) (heq : code ++ rest = code' ++ rest') : code = code' ∧ c = c' := by
  induction code generalizing t code' with
  | nil => cases h
  | cons b code ih =>
    cases code' with
    | nil => cases h'
    | cons b' code' =>
      obtain ⟨rfl, htail⟩ := List.cons.inj heq
      unfold Node.leadsTo at h h'
      cases ht : t.child b with
      | null => rw [ht] at h; cases h
      | node l r a leaf =>
        rw [ht] at h h'
        cases leaf with
        | true =>
          simp only [if_true, Bool.and_eq_true, List.isEmpty_iff, beq_iff_eq] at h h'
          obtain ⟨rfl, rfl⟩ := h
          obtain ⟨rfl, rfl⟩ := h'
          exact ⟨rfl, rfl⟩
        | false =>
          obtain ⟨rfl, rfl⟩ := ih h h' htail
          exact ⟨rfl, rfl⟩

/-- bits that end on the way have no code in front -/
theorem Node.walk_of_leadsTo {c : BitVec 8} {t : Node} {code : List Bool} (h : t.leadsTo c code = true) (rest : List Bool) :
    t.walk (code ++ rest) = none := by
  induction code generalizing t with
  | nil => cases h
  | cons b code ih =>
    rw [List.cons_append]
    unfold Node.leadsTo at h
    unfold Node.walk
    cases ht : t.child b with
    | null => rfl
    | node l r a leaf =>
      rw [ht] at h
      cases leaf with
      | true => rfl
      | false => exact ih h

/-- the code in front belongs to one entry -/
theorem symBits_unique {i j : ℕ} (hi : i < 257) (hj : j < 257) {rest rest' : List Bool}
    (heq : symBits i ++ rest = symBits j ++ rest') : i = j := by
  obtain ⟨hcode, hbyte⟩ := Node.leadsTo_unique (tree_leadsTo i hi) (tree_leadsTo j hj) heq
  have hmod := congrArg BitVec.toNat hbyte
  rw [BitVec.toNat_ofNat, BitVec.toNat_ofNat] at hmod
  have hlen := congrArg List.length hcode
  -- the end of the string has the byte of the first entry, and a longer code
  by_contra hne
  have hends : (i = 0 ∧ j = 256) ∨ (i = 256 ∧ j = 0) := by
    omega
  rw [symBits, symBits, length_msb, length_msb] at hlen
  rcases hends with ⟨rfl, rfl⟩ | ⟨rfl, rfl⟩
  · rw [huffmanTable_eos] at hlen
    cases hlen
  · rw [huffmanTable_eos] at hlen
    cases hlen

/-! ## All of the bits -/

/-- `l` are the entries whose codes are in front, and `tail` leads to no leaf -/
structure Parse (bits : List Bool) (l : List ℕ) (tail : List Bool) : Prop where
  lt : ∀ i ∈ l, i < 257
  eq : bits = l.flatMap symBits ++ tail
  walk : ∃ u, makeHuffmanTree.walk tail = some u

theorem exists_parse (bits : List Bool) : ∃ l tail, Parse bits l tail := by
  induction hn : bits.length using Nat.strong_induction_on generalizing bits with
  | _ n ih =>
    obtain ⟨left, right, a, htree⟩ := tree_inner
    have hfull := tree_full
    rw [htree] at hfull
    have hsplit := Node.walk_or_leadsTo bits hfull
    rw [← htree] at hsplit
    rcases hsplit with hwalk | ⟨code, rest, c, rfl, hlead⟩
    · exact ⟨[], bits, nofun, rfl, hwalk⟩
    · obtain ⟨i, hi, rfl, _⟩ := leafAt_tree (Node.leafAt_of_leadsTo hlead)
      have hfive := five_le_symBits hi
      rw [List.length_append] at hn
      obtain ⟨l, tail, hl, heq, hwalk⟩ := ih rest.length (by omega) rest rfl
      refine ⟨i :: l, tail, List.forall_mem_cons.mpr ⟨hi, hl⟩, ?_, hwalk⟩
      rw [List.flatMap_cons, List.append_assoc, ← heq]

/-- other codes in front are the first of the same -/
theorem Parse.begins {l l' : List ℕ} {bits tail rest : List Bool} (h : Parse bits l tail) (hl' : ∀ i ∈ l', i < 257)
    (heq : bits = l'.flatMap symBits ++ rest) : l' <+: l := by
  induction l' generalizing bits l with
  | nil => exact List.nil_prefix
  | cons j l' ih =>
    have hj := hl' j List.mem_cons_self
    rw [List.flatMap_cons, List.append_assoc] at heq
    cases l with
    | nil =>
      obtain ⟨u, hwalk⟩ := h.walk
      have htail : tail = symBits j ++ (l'.flatMap symBits ++ rest) := h.eq.symm.trans heq
      rw [htail, Node.walk_of_leadsTo (tree_leadsTo j hj)] at hwalk
      cases hwalk
    | cons i l =>
      have hi := h.lt i List.mem_cons_self
      have hbits := h.eq.symm.trans heq
      rw [List.flatMap_cons, List.append_assoc] at hbits
      obtain rfl := symBits_unique hi hj hbits
      have hrest : Parse (l.flatMap symBits ++ tail) l tail := ⟨fun k hk => h.lt k (List.mem_cons_of_mem i hk), rfl, h.walk⟩
      rw [List.prefix_cons_inj]
      exact ih hrest (fun k hk => hl' k (List.mem_cons_of_mem i hk)) (List.append_cancel_left hbits)

/-- there are at most two codes to a byte -/
theorem length_le_of_flatMap {l : List ℕ} (hl : ∀ i ∈ l, i < 257) : 5 * l.length ≤ (l.flatMap symBits).length := by
  induction l with
  | nil => exact Nat.zero_le _
  | cons i l ih =>
    have hfive := five_le_symBits (hl i List.mem_cons_self)
    have hrest := ih fun j hj => hl j (List.mem_cons_of_mem i hj)
    rw [List.flatMap_cons, List.length_append, List.length_cons]
    omega

/-! ## The decoder -/

/-- byte boundaries that are counted when the input ends, for codes that end `offset` bits into it -/
def endCrossed (offset tail : ℕ) : ℕ := (if offset ≠ 0 ∧ offset % 8 = 0 then 1 else 0) + (offset % 8 + tail) / 8

/-- what `huffman_decode` makes of the codes and what is behind them -/
theorem huffmanDecode_parse {x : List (BitVec 8)} {l : List ℕ} {tail : List Bool} (h : Parse (bytesMsb x) l tail) :
    (SymbolsFit 0 l → huffmanDecode x =
      some (if endCrossed (l.flatMap symBits).length tail.length ≤ 1 ∧ ∀ b ∈ tail, b = true then (l.length : ℤ) else -1,
        l.map (BitVec.ofNat 8))) ∧
    (¬ SymbolsFit 0 l → ∃ d, huffmanDecode x = some (-1, d) ∧ d.length ≤ l.length) := by
  obtain ⟨hl, heq, u, hwalk⟩ := h
  have hlen := congrArg List.length heq
  rw [length_bytesMsb, List.length_append] at hlen
  have hroot : AtRoot ⟨[], x, 7, makeHuffmanTree, 0, false⟩ [] (l.flatMap symBits ++ tail) 0 := by
    refine ⟨rfl, ?_, rfl, rfl, rfl, rfl⟩
    rw [← heq]
    unfold DecodeState.rest
    cases x <;> rfl
  obtain ⟨hrun, hstop⟩ := decodeLoop_symbols hl hroot (0 + tail.length + 1)
  have hfuel : 8 * x.length + 1 = 0 + tail.length + 1 + (l.flatMap symBits).length := by omega
  unfold huffmanDecode
  rw [hfuel]
  refine ⟨fun hfit => ?_, fun hfit => hstop hfit⟩
  obtain ⟨s', hloop, hdst, hrest, hcurrent, hzero, hshift, hcross⟩ := hrun hfit
  rw [Nat.zero_add] at hshift hcross
  rw [List.nil_append] at hdst
  rw [hloop, decodeLoop_tail (hcurrent.symm ▸ hwalk) hrest hshift (by omega), hcross, hdst, List.length_map]
  refine congrArg some (Prod.ext (if_congr ?_ rfl rfl) rfl)
  rw [hzero, endCrossed]
  exact and_congr_right' (and_iff_right rfl)

/-- It never follows a null pointer, and writes two bytes at most for each byte it reads. -/
theorem huffmanDecode_bound (x : List (BitVec 8)) : ∃ ret dst, huffmanDecode x = some (ret, dst) ∧ dst.length ≤ 2 * x.length := by
  obtain ⟨l, tail, h⟩ := exists_parse (bytesMsb x)
  have hbound : l.length ≤ 2 * x.length := by
    have hfive := length_le_of_flatMap h.lt
    have hlen := congrArg List.length h.eq
    rw [length_bytesMsb, List.length_append] at hlen
    omega
  obtain ⟨hfit, hstop⟩ := huffmanDecode_parse h
  by_cases hc : SymbolsFit 0 l
  · refine ⟨_, _, hfit hc, ?_⟩
    rwa [List.length_map]
  · obtain ⟨d, hd, hle⟩ := hstop hc
    exact ⟨-1, d, hd, hle.trans hbound⟩

theorem length_codes_le (src : List (BitVec 8)) : (src.flatMap codeBits).length ≤ 30 * src.length := by
  induction src with
  | nil => exact Nat.zero_le _
  | cons c src ih =>
    have hthirty := (entry_wf c).2.1
    have hlen : (codeBits c).length = (entry c).bitLen := length_msb _ _
    rw [List.flatMap_cons, List.length_append, List.length_cons, hlen]
    omega

/-- four bytes at most are written for each byte, with the padding -/
theorem length_huffmanEncode_le (src : List (BitVec 8)) : (huffmanEncode src).length ≤ 4 * src.length := by
  obtain ⟨pad, hpad, hbits⟩ := bytesMsb_huffmanEncode src
  have hcodes := length_codes_le src
  have hlen := congrArg List.length hbits
  rw [length_bytesMsb, List.length_append, List.length_replicate] at hlen
  omega

/-! ## What is accepted -/

/-- `huffman_decode` returns a length, not an error -/
def Decodes (x s : List (BitVec 8)) : Prop := ∃ ret, 0 ≤ ret ∧ huffmanDecode x = some (ret, s)

/-- the end of the string is among the codes in front -/
def ContainsEos (x : List (BitVec 8)) : Prop := ∃ l : List ℕ, (∀ i ∈ l, i < 257) ∧ 256 ∈ l ∧ l.flatMap symBits <+: bytesMsb x

structure Canonical (x : List (BitVec 8)) : Prop where
  encode : ∀ s, Decodes x s → x = huffmanEncode s
  padding : ∀ s, Decodes x s → ∃ pad < 8, bytesMsb x = s.flatMap codeBits ++ List.replicate pad true
  eos : ContainsEos x → ∀ s, ¬ Decodes x s

/-- `x` is a sequence of codes with the end of the string, none of which crosses more than three byte boundaries, and a padding -/
def EosFits (x : List (BitVec 8)) : Prop :=
  ∃ (l : List ℕ) (pad : ℕ), (∀ i ∈ l, i < 257) ∧ 256 ∈ l ∧ SymbolsFit 0 l ∧ pad < 8 ∧ bytesMsb x = l.flatMap symBits ++ List.replicate pad true

/-- padding that ends with its byte crosses no boundary too many -/
theorem endCrossed_le_iff {offset tail : ℕ} (hend : (offset + tail) % 8 = 0) :
    endCrossed offset tail ≤ 1 ↔ tail < 8 ∨ (offset = 0 ∧ tail = 8) := by
  unfold endCrossed
  split_ifs <;> omega

theorem eq_ff {x : List (BitVec 8)} (h : bytesMsb x = List.replicate 8 true) : x = [0xff] := by
  have hlen := congrArg List.length h
  rw [length_bytesMsb, List.length_replicate] at hlen
  obtain ⟨b, rfl⟩ := List.length_eq_one_iff.mp (by omega : x.length = 1)
  rw [bytesMsb_cons, bytesMsb_nil, List.append_nil] at h
  have hff : ∀ b : BitVec 8, msb 8 b.toNat = List.replicate 8 true → b = 0xff := by decide
  rw [hff b h]

/-- what is accepted: codes that cross few boundaries, with a padding of ones, and a byte of padding alone -/
theorem decodes_iff {x s : List (BitVec 8)} : Decodes x s ↔
    (x = [0xff] ∧ s = []) ∨ ∃ (l : List ℕ) (pad : ℕ), (∀ i ∈ l, i < 257) ∧ SymbolsFit 0 l ∧ pad < 8 ∧
      bytesMsb x = l.flatMap symBits ++ List.replicate pad true ∧ s = l.map (BitVec.ofNat 8) := by
  constructor
  · rintro ⟨ret, hret, hdec⟩
    obtain ⟨l, tail, h⟩ := exists_parse (bytesMsb x)
    obtain ⟨hfit, hstop⟩ := huffmanDecode_parse h
    by_cases hc : SymbolsFit 0 l
    · rw [hfit hc] at hdec
      obtain ⟨hif, hs⟩ := Prod.mk.inj (Option.some.inj hdec)
      have hend : endCrossed (l.flatMap symBits).length tail.length ≤ 1 ∧ ∀ b ∈ tail, b = true := by
        by_contra hnot
        rw [if_neg hnot] at hif
        omega
      have htail : tail = List.replicate tail.length true := List.eq_replicate_iff.mpr ⟨rfl, hend.2⟩
      have hlen := congrArg List.length h.eq
      rw [length_bytesMsb, List.length_append] at hlen
      rcases (endCrossed_le_iff (by omega)).mp hend.1 with hpad | ⟨hnil, height⟩
      · exact Or.inr ⟨l, tail.length, h.lt, hc, hpad, htail ▸ h.eq, hs.symm⟩
      · -- a byte of ones and nothing before it
        have hl : l = [] := by
          have := length_le_of_flatMap h.lt
          exact List.length_eq_zero_iff.mp (by omega)
        have heq := h.eq
        rw [hl, List.flatMap_nil, List.nil_append, htail, height] at heq
        rw [hl] at hs
        exact Or.inl ⟨eq_ff heq, hs.symm⟩
    · obtain ⟨d, hd, _⟩ := hstop hc
      rw [hd] at hdec
      cases hdec
      exact absurd hret (by decide)
  · rintro (⟨rfl, rfl⟩ | ⟨l, pad, hl, hc, hpad, heq, rfl⟩)
    · have hdec : huffmanDecode [0xff] = some (0, []) := by decide +kernel
      exact ⟨0, le_refl 0, hdec⟩
    · have hparse : Parse (bytesMsb x) l (List.replicate pad true) :=
        ⟨hl, heq, Node.walk_ones (Nat.le_of_lt_succ hpad) tree_onesInner⟩
      have hlen := congrArg List.length heq
      rw [length_bytesMsb, List.length_append, List.length_replicate] at hlen
      refine ⟨l.length, Int.natCast_nonneg _, ?_⟩
      have hend : endCrossed (l.flatMap symBits).length (List.replicate pad true).length ≤ 1 := by
        rw [List.length_replicate]
        exact (endCrossed_le_iff (by omega)).mpr (Or.inl hpad)
      rw [(huffmanDecode_parse hparse).1 hc, if_pos ⟨hend, fun b hb => List.eq_of_mem_replicate hb⟩]

/-- entries that are bytes, from the bytes -/
theorem map_toNat_ofNat {l : List ℕ} (hl : ∀ i ∈ l, i < 257) (heos : 256 ∉ l) : (l.map (BitVec.ofNat 8)).map BitVec.toNat = l := by
  rw [List.map_map]
  conv_rhs => rw [← List.map_id l]
  apply List.map_congr_left
  intro i hi
  have hlt := hl i hi
  have hne : i ≠ 256 := fun h => heos (h ▸ hi)
  rw [Function.comp_apply, BitVec.toNat_ofNat, id]
  exact Nat.mod_eq_of_lt (by omega)

/-- What `huffman_decode` accepts is the output of `huffman_encode`, except for a byte of ones alone and for codes with the end of
the string that cross few enough byte boundaries. -/
theorem huffman_canonical_iff (x : List (BitVec 8)) : Canonical x ↔ x ≠ [0xff] ∧ ¬ EosFits x := by
  constructor
  · intro h
    refine ⟨fun hff => ?_, fun heos => ?_⟩
    · have hnil := h.encode [] (decodes_iff.mpr (Or.inl ⟨hff, rfl⟩))
      rw [hff] at hnil
      exact absurd hnil (by decide)
    · obtain ⟨l, pad, hl, hmem, hfit, hpad, heq⟩ := heos
      refine h.eos ⟨l, hl, hmem, ?_⟩ _ (decodes_iff.mpr (Or.inr ⟨l, pad, hl, hfit, hpad, heq, rfl⟩))
      rw [heq]
      exact List.prefix_append _ _
  · rintro ⟨hff, heos⟩
    -- the codes of what is accepted, and none of them is the end of the string
    have hcodes : ∀ s, Decodes x s → 256 ∉ s.map BitVec.toNat ∧ ∃ pad < 8, Parse (bytesMsb x) (s.map BitVec.toNat) (List.replicate pad true) := by
      intro s hs
      rcases decodes_iff.mp hs with ⟨hx, -⟩ | ⟨l, pad, hl, hfit, hpad, heq, rfl⟩
      · exact absurd hx hff
      · have hnot : 256 ∉ l := fun hmem => heos ⟨l, pad, hl, hmem, hfit, hpad, heq⟩
        rw [map_toNat_ofNat hl hnot]
        exact ⟨hnot, pad, hpad, hl, heq, Node.walk_ones (Nat.le_of_lt_succ hpad) tree_onesInner⟩
    have hpadding : ∀ s, Decodes x s → ∃ pad < 8, bytesMsb x = s.flatMap codeBits ++ List.replicate pad true := by
      intro s hs
      obtain ⟨-, pad, hpad, hparse⟩ := hcodes s hs
      exact ⟨pad, hpad, flatMap_codeBits s ▸ hparse.eq⟩
    refine ⟨fun s hs => ?_, hpadding, fun hcontains s hs => ?_⟩
    · -- both are filled up to a whole byte
      obtain ⟨pad, hpad, heq⟩ := hpadding s hs
      obtain ⟨pad', hpad', heq'⟩ := bytesMsb_huffmanEncode s
      have hlen := congrArg List.length heq
      have hlen' := congrArg List.length heq'
      rw [length_bytesMsb, List.length_append, List.length_replicate] at hlen hlen'
      have hsame : pad = pad' := by omega
      rw [← hsame, ← heq] at heq'
      exact (bytesMsb_inj heq').symm
    · obtain ⟨hnot, pad, -, hparse⟩ := hcodes s hs
      obtain ⟨l', hl', hmem, rest, heq⟩ := hcontains
      exact hnot ((hparse.begins hl' heq.symm).mem hmem)

/-- 30 ones for the end of the string, and two more: they come out as a zero -/
theorem huffman_accepts_eos : ¬ ∀ x, Canonical x := by
  intro h
  have hdec : huffmanDecode [0xff, 0xff, 0xff, 0xff] = some (1, [0]) := by decide +kernel
  have henc := (h [0xff, 0xff, 0xff, 0xff]).encode [0] ⟨1, by decide, hdec⟩
  exact absurd henc (by decide +kernel)

end TrafficServer.Http2.Huffman
