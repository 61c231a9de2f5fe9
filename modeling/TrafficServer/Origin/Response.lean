/-
The response of the origin server (`src/origin/origin.cpp`, `serverThread`).

An object is a size and as many extra features as the first line of the trace has columns for. The response is a header with
the size, a content type and the features, an empty line, and as many bytes as the object has, written in blocks of 32768, 2048
and 64 bytes and one by one.

`origin_framing`: behind the first empty line comes the body, and it is as long as the header says, exactly if there is a
number of extra features and the size fits in a `long`. Without extra features each of the two lines before the end has its own
end of line already, so that an empty line too many is written and belongs to the body (`no_extra_features`).
-/
import TrafficServer.Lib.Decimal
import TrafficServer.Cache.ExtraFeatures

namespace TrafficServer.Origin

open TrafficServer.Hex TrafficServer.Cache.ExtraFeatures

/-- an object of the map -/
structure FeatureT (nExtraFeatures : ℤ) where
  size : BitVec 64
  extraFeatures : List (BitVec 16)
  /-- `main` reads so many for each object -/
  length_eq : extraFeatures.length = nExtraFeatures.toNat

/-- how often each loop runs -/
structure Division where
  big : ℤ
  medium : ℤ
  small : ℤ
  remainder : ℤ

/-- the divisions, which round to zero -/
def division (csize : ℤ) : Division where
  big := csize.tdiv 32768
  medium := (csize.tmod 32768).tdiv 2048
  small := ((csize.tmod 32768).tmod 2048).tdiv 64
  remainder := ((csize.tmod 32768).tmod 2048).tmod 64

/-- `dataBig`, `dataMedium` and `dataSmall` -/
def dataBlock (size : ℕ) : Bytes := (List.range size).map fun i => BitVec.ofNat 8 i

/-- `quot` times a block -/
def putStr (quot : ℤ) (block : Bytes) : Bytes := (List.replicate quot.toNat block).flatten

namespace FeatureT

variable {nExtraFeatures : ℤ} (f : FeatureT nExtraFeatures)

/-- a `long` -/
def csize : ℤ := f.size.toInt

def header : Bytes :=
  ascii "Content-length: " ++ ascii (toString f.csize) ++ ascii "\r\nContent-type: application/octet-stream\r\n" ++
    (if nExtraFeatures ≠ 0 then mimeField ++ f.extraFeatures.flatMap format04x else []) ++ ascii "\r\n\r\n"

def body : Bytes :=
  let d := division f.csize
  putStr d.big (dataBlock 32768) ++ putStr d.medium (dataBlock 2048) ++ putStr d.small (dataBlock 64) ++ dataBlock d.remainder.toNat

def response : Bytes := f.header ++ f.body

end FeatureT

/-! ## What a client reads -/

def crlf : Bytes := ascii "\r\n"

/-- the end of a line, and an empty line -/
def emptyLine : Bytes := ascii "\r\n\r\n"

/-- the number in the header -/
def contentLength (header : Bytes) : Option ℕ :=
  (find (ascii "Content-length: ") header).bind fun i =>
    Decimal.number ((header.drop (i + (ascii "Content-length: ").length)).takeWhile fun b => b ≠ 0x0d)

/-- the header ends with the first empty line, and behind it comes the body, of the length that is given -/
def Framed (resp body : Bytes) : Prop :=
  ∃ i, find emptyLine resp = some i ∧ resp.drop (i + 4) = body ∧ contentLength (resp.take (i + 2)) = some body.length

/-! ## Lines -/

/-- what cannot start the pattern is skipped -/
theorem find_append {c : BitVec 8} {pat x s : Bytes} (h : c ∉ x) :
    find (c :: pat) (x ++ s) = (find (c :: pat) s).map (x.length + ·) := by
  induction x with
  | nil => simp
  | cons b x ih =>
    obtain ⟨hb, hx⟩ := List.ne_and_not_mem_of_not_mem_cons h
    have hpre : ¬ c :: pat <+: b :: (x ++ s) := fun hpre => hb (List.cons_prefix_cons.mp hpre).1
    rw [List.cons_append, find, if_neg hpre, ih hx, Option.map_map, List.length_cons]
    apply congrArg (fun g => Option.map g (find (c :: pat) s))
    funext i
    simp only [Function.comp_apply]
    omega

theorem find_start {pat s : Bytes} (hne : pat ≠ []) : find pat (pat ++ s) = some 0 := by
  cases pat with
  | nil => exact absurd rfl hne
  | cons c pat => exact if_pos (List.prefix_append _ _)

/-- lines with their ends -/
def block (lines : List Bytes) : Bytes := lines.flatMap fun line => line ++ crlf

theorem block_cons (line : Bytes) (lines : List Bytes) : block (line :: lines) = line ++ crlf ++ block lines := rfl

/-- a line that is not empty and has no end in it -/
def IsLine (line : Bytes) : Prop := line ≠ [] ∧ 0x0d ∉ line

/-- the end of a line before another line -/
theorem find_emptyLine_crlf {b : BitVec 8} {s : Bytes} (h : b ≠ 0x0d) :
    find emptyLine (crlf ++ b :: s) = (find emptyLine (b :: s)).map (2 + ·) := by
  have h1 : ¬ emptyLine <+: crlf ++ b :: s := fun hpre => by
    have hfour : 0x0d = b ∧ _ := List.cons_prefix_cons.mp (List.cons_prefix_cons.mp (List.cons_prefix_cons.mp hpre).2).2
    exact h hfour.1.symm
  have h2 : ¬ emptyLine <+: 0x0a :: b :: s := fun hpre => absurd (List.cons_prefix_cons.mp hpre).1 (by decide)
  calc find emptyLine (crlf ++ b :: s) = (find emptyLine (0x0a :: b :: s)).map (· + 1) := if_neg h1
    _ = ((find emptyLine (b :: s)).map (· + 1)).map (· + 1) := congrArg _ (if_neg h2)
    _ = (find emptyLine (b :: s)).map (2 + ·) := by
      rw [Option.map_map]
      apply congrArg (fun g => Option.map g (find emptyLine (b :: s)))
      funext i
      simp only [Function.comp_apply]
      omega

/-- the empty line behind lines is the first one -/
theorem find_block {lines : List Bytes} (hne : lines ≠ []) (hlines : ∀ line ∈ lines, IsLine line) (s : Bytes) :
    ∃ i, find emptyLine (block lines ++ crlf ++ s) = some i ∧ i + 2 = (block lines).length := by
  induction lines with
  | nil => exact absurd rfl hne
  | cons line lines ih =>
    obtain ⟨_, hcr⟩ := hlines line List.mem_cons_self
    cases lines with
    | nil =>
      refine ⟨line.length, ?_, by simp [block, crlf, ascii]⟩
      calc find emptyLine (block [line] ++ crlf ++ s) = find emptyLine (line ++ (emptyLine ++ s)) := by
            simp [block, crlf, emptyLine, ascii]
        _ = (find emptyLine (emptyLine ++ s)).map (line.length + ·) := find_append hcr
        _ = some line.length := by rw [find_start (by decide)]; rfl
    | cons next lines =>
      obtain ⟨i, hfind, hlen⟩ := ih (by simp) fun l hl => hlines l (List.mem_cons_of_mem line hl)
      obtain ⟨hnext, hcr'⟩ := hlines next (by simp)
      obtain ⟨b, rest, hb⟩ : ∃ b rest, block (next :: lines) ++ crlf ++ s = b :: rest ∧ b ≠ 0x0d := by
        cases next with
        | nil => exact absurd rfl hnext
        | cons b next => exact ⟨b, _, rfl, (List.ne_and_not_mem_of_not_mem_cons hcr').1.symm⟩
      refine ⟨line.length + (2 + i), ?_, ?_⟩
      · calc find emptyLine (block (line :: next :: lines) ++ crlf ++ s)
            = find emptyLine (line ++ (crlf ++ (block (next :: lines) ++ crlf ++ s))) := by
              simp [block]
          _ = (find emptyLine (crlf ++ (block (next :: lines) ++ crlf ++ s))).map (line.length + ·) := find_append hcr
          _ = some (line.length + (2 + i)) := by
              rw [hb.1, find_emptyLine_crlf hb.2, ← hb.1, hfind]
              rfl
      · calc line.length + (2 + i) + 2 = (line ++ crlf).length + (i + 2) := by
              simp [crlf, ascii]
              omega
          _ = (block (line :: next :: lines)).length := by
              rw [hlen, ← List.length_append, block_cons line]

/-! ## The response -/

namespace FeatureT

variable {nExtraFeatures : ℤ} (f : FeatureT nExtraFeatures)

def lines : List Bytes :=
  [ascii "Content-length: " ++ ascii (toString f.csize), ascii "Content-type: application/octet-stream"] ++
    if nExtraFeatures ≠ 0 then [mimeField ++ f.extraFeatures.flatMap format04x] else []

/-- the end of the last line is in the text of its own, but for the features -/
theorem header_eq_block : f.header = block f.lines ++ crlf ++ if nExtraFeatures ≠ 0 then [] else crlf := by
  by_cases hn : nExtraFeatures ≠ 0
  · simp only [header, lines, if_pos hn, block, List.flatMap_cons, List.flatMap_nil, List.cons_append, List.nil_append,
      List.append_assoc, List.append_nil]
    rfl
  · simp only [header, lines, if_neg hn, block, List.flatMap_cons, List.flatMap_nil, List.append_assoc, List.append_nil]
    rfl

end FeatureT

/-- `%ld` of a negative number -/
theorem ascii_negSucc (m : ℕ) : ascii (toString (Int.negSucc m)) = 0x2d :: ascii (toString (m + 1)) := by
  simp [ascii, Int.toString_eq_repr, Int.repr]

theorem mem_toString {c : ℤ} {b : BitVec 8} (h : b ∈ ascii (toString c)) : b = 0x2d ∨ Decimal.isDigit b = true := by
  cases c with
  | ofNat m => exact Or.inr (Decimal.isDigit_mem_ascii (n := m) h)
  | negSucc m =>
    rw [ascii_negSucc] at h
    exact (List.mem_cons.mp h).imp_right Decimal.isDigit_mem_ascii

theorem number_toString (c : ℤ) : Decimal.number (ascii (toString c)) = if 0 ≤ c then some c.toNat else none := by
  cases c with
  | ofNat m =>
    exact (Decimal.number_ascii m).trans (if_pos (Int.natCast_nonneg m)).symm
  | negSucc m =>
    have hsign : ¬ (0x2d :: ascii (toString (m + 1))).all Decimal.isDigit = true := fun hall =>
      absurd (List.all_eq_true.mp hall 0x2d List.mem_cons_self) (by decide)
    rw [ascii_negSucc, Decimal.number, if_neg fun h => hsign h.2, if_neg (by simp)]

theorem isLine_contentLength (c : ℤ) : IsLine (ascii "Content-length: " ++ ascii (toString c)) := by
  refine ⟨by simp [ascii], fun h => ?_⟩
  rcases List.mem_append.mp h with h | h
  · exact absurd h (by decide)
  · rcases mem_toString h with h | h
    · exact absurd h (by decide)
    · exact absurd h (by decide)

theorem isLine_features (features : List (BitVec 16)) : IsLine (mimeField ++ features.flatMap format04x) := by
  refine ⟨by simp [mimeField, ascii], fun h => ?_⟩
  rcases List.mem_append.mp h with h | h
  · exact absurd h (by decide)
  · obtain ⟨v, _, hv⟩ := List.mem_flatMap.mp h
    obtain ⟨d, hd, hb⟩ := mem_format04x hv
    revert hb
    revert d
    decide

theorem isLine_lines {nExtraFeatures : ℤ} (f : FeatureT nExtraFeatures) : ∀ line ∈ f.lines, IsLine line := by
  intro line hline
  have htype : IsLine (ascii "Content-type: application/octet-stream") := ⟨by decide, by decide⟩
  by_cases hn : nExtraFeatures ≠ 0
  · simp only [FeatureT.lines, if_pos hn, List.cons_append, List.nil_append, List.mem_cons, List.not_mem_nil, or_false] at hline
    rcases hline with rfl | rfl | rfl
    · exact isLine_contentLength _
    · exact htype
    · exact isLine_features _
  · simp only [FeatureT.lines, if_neg hn, List.append_nil, List.mem_cons, List.not_mem_nil, or_false] at hline
    rcases hline with rfl | rfl
    · exact isLine_contentLength _
    · exact htype

/-- the number behind the field at the start -/
theorem contentLength_block (c : ℤ) (lines : List Bytes) :
    contentLength (block ((ascii "Content-length: " ++ ascii (toString c)) :: lines)) = if 0 ≤ c then some c.toNat else none := by
  have hfind : find (ascii "Content-length: ") (block ((ascii "Content-length: " ++ ascii (toString c)) :: lines)) = some 0 := by
    rw [block_cons, List.append_assoc, List.append_assoc]
    exact find_start (by decide)
  have hnumber : (block ((ascii "Content-length: " ++ ascii (toString c)) :: lines)).drop (ascii "Content-length: ").length =
      ascii (toString c) ++ (crlf ++ block lines) := by
    rw [block_cons, List.append_assoc, List.append_assoc, List.drop_left]
  have hdigits : ∀ b ∈ ascii (toString c), decide (b ≠ 0x0d) = true := by
    intro b hb
    rcases mem_toString hb with rfl | hb
    · decide
    · exact decide_eq_true fun h => absurd (h ▸ hb) (by decide)
  rw [contentLength, hfind, Option.bind_some, Nat.zero_add, hnumber, List.takeWhile_append_of_pos hdigits]
  rw [show (crlf ++ block lines).takeWhile (fun b => decide (b ≠ 0x0d)) = [] from rfl, List.append_nil, number_toString]

/-! ## The body -/

theorem division_sum (csize : ℤ) :
    32768 * (division csize).big + 2048 * (division csize).medium + 64 * (division csize).small + (division csize).remainder =
      csize := by
  have h1 := Int.mul_tdiv_add_tmod csize 32768
  have h2 := Int.mul_tdiv_add_tmod (csize.tmod 32768) 2048
  have h3 := Int.mul_tdiv_add_tmod ((csize.tmod 32768).tmod 2048) 64
  simp only [division]
  omega

theorem division_nonneg {csize : ℤ} (h : 0 ≤ csize) :
    0 ≤ (division csize).big ∧ 0 ≤ (division csize).medium ∧ 0 ≤ (division csize).small ∧ 0 ≤ (division csize).remainder := by
  have h1 : 0 ≤ csize.tmod 32768 := Int.tmod_nonneg _ h
  have h2 : 0 ≤ (csize.tmod 32768).tmod 2048 := Int.tmod_nonneg _ h1
  exact ⟨Int.tdiv_nonneg h (by decide), Int.tdiv_nonneg h1 (by decide), Int.tdiv_nonneg h2 (by decide), Int.tmod_nonneg _ h2⟩

theorem length_putStr (quot : ℤ) (size : ℕ) : (putStr quot (dataBlock size)).length = quot.toNat * size := by
  simp [putStr, dataBlock]

theorem length_body {nExtraFeatures : ℤ} (f : FeatureT nExtraFeatures) (h : 0 ≤ f.csize) : f.body.length = f.csize.toNat := by
  obtain ⟨h1, h2, h3, h4⟩ := division_nonneg h
  have hsum := division_sum f.csize
  have hlen : f.body.length = (division f.csize).big.toNat * 32768 + (division f.csize).medium.toNat * 2048 +
      (division f.csize).small.toNat * 64 + (division f.csize).remainder.toNat := by
    simp only [FeatureT.body, List.length_append, length_putStr]
    simp [dataBlock]
  omega

/-- the object size, in a signed variable -/
theorem csize_eq {nExtraFeatures : ℤ} (f : FeatureT nExtraFeatures) :
    f.csize = if f.size.toNat < 2 ^ 63 then (f.size.toNat : ℤ) else f.size.toNat - 2 ^ 64 := by
  have hlt := f.size.isLt
  rw [FeatureT.csize, BitVec.toInt_eq_toNat_cond]
  split_ifs <;> omega

/-- the empty line behind the lines is the first one; the lines are before it, and the body behind it and what comes first there -/
theorem find_response {nExtraFeatures : ℤ} (f : FeatureT nExtraFeatures) :
    ∃ i, find (crlf ++ crlf) f.response = some i ∧ f.response.take (i + 2) = block f.lines ∧
      f.response.drop (i + 4) = (if nExtraFeatures ≠ 0 then [] else crlf) ++ f.body := by
  have hne : f.lines ≠ [] := by simp [FeatureT.lines]
  have hresponse : f.response = block f.lines ++ crlf ++ ((if nExtraFeatures ≠ 0 then [] else crlf) ++ f.body) := by
    rw [FeatureT.response, f.header_eq_block, List.append_assoc]
  obtain ⟨i, hfind, hi⟩ := find_block hne (isLine_lines f) ((if nExtraFeatures ≠ 0 then [] else crlf) ++ f.body)
  rw [← hresponse] at hfind
  have hfour : i + 4 = (block f.lines ++ crlf).length := by
    rw [List.length_append, ← hi]
    rfl
  refine ⟨i, hfind, ?_, ?_⟩
  · rw [hresponse, hi, List.append_assoc, List.take_left]
  · rw [hresponse, hfour, List.drop_left]

/-- **Framing.** -/
theorem origin_framing {nExtraFeatures : ℤ} (f : FeatureT nExtraFeatures) :
    (Framed f.response f.body ∧ f.body.length = f.size.toNat ∧
      32768 * (division f.csize).big + 2048 * (division f.csize).medium + 64 * (division f.csize).small +
        (division f.csize).remainder = f.size.toNat) ↔
    nExtraFeatures ≠ 0 ∧ f.size.toNat < 2 ^ 63 := by
  obtain ⟨i, hfind, htake, hdrop⟩ := find_response f
  have hlength : contentLength (block f.lines) = if 0 ≤ f.csize then some f.csize.toNat else none :=
    contentLength_block f.csize _
  have hcsize := csize_eq f
  constructor
  · rintro ⟨⟨j, hj, hbody, hnumber⟩, hlen, hsum⟩
    obtain rfl : i = j := Option.some.inj (hfind.symm.trans hj)
    refine ⟨fun hn => ?_, ?_⟩
    · rw [hdrop, if_neg (not_not.mpr hn)] at hbody
      have hcount := congrArg List.length hbody
      simp [crlf, ascii] at hcount
      omega
    · rw [division_sum, hcsize] at hsum
      split_ifs at hsum with hlt
      · exact hlt
      · omega
  · rintro ⟨hn, hlt⟩
    rw [if_pos hlt] at hcsize
    have hnonneg : 0 ≤ f.csize := by rw [hcsize]; exact Int.natCast_nonneg _
    have hlen : f.body.length = f.size.toNat := by
      rw [length_body f hnonneg, hcsize, Int.toNat_natCast]
    refine ⟨⟨i, hfind, ?_, ?_⟩, hlen, ?_⟩
    · rw [hdrop, if_pos hn, List.nil_append]
    · rw [htake, hlength, if_pos hnonneg, hlen, hcsize, Int.toNat_natCast]
    · rw [division_sum, hcsize]

/-- an object of one byte, without extra features -/
theorem no_extra_features :
    ¬ ∀ (nExtraFeatures : ℤ) (f : FeatureT nExtraFeatures), Framed f.response f.body := by
  intro h
  obtain ⟨i, hfind, hbody, _⟩ := h 0 ⟨1, [], rfl⟩
  obtain rfl : 57 = i := Option.some.inj ((by decide +kernel : some 57 = _).trans hfind)
  exact absurd hbody (by decide +kernel)

end TrafficServer.Origin
