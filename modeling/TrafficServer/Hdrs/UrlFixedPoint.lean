/-
The text of a parsed URL is a fixed point of parsing and printing, and where it is not.

`Seen` is the invariant of the loop of `url_parse_internet` over what it has read; with it the parts of a parsed URL have the shape that
their printed text is read back from. Three kinds of authority are not stable: a port without a host, which is not printed; a user that
starts with an open bracket before a host that the printer puts into brackets; and such a host that gets too long for its length field.
`url_fixed_point` says that there are no others. `bracket_twice` is a URL of the second kind.
-/
import Mathlib
import TrafficServer.Hdrs.UrlReparse

namespace TrafficServer.Hdrs.UrlParse

/-! ## The fields of an authority -/

/-- what follows the last `@` -/
def hostField (s : Bytes) : Bytes := (s.reverse.takeWhile (· != commat)).reverse

/-- what stands between the last two `@`, or before the only one -/
def userField (s : Bytes) : Bytes := ((s.reverse.dropWhile (· != commat)).tail.takeWhile (· != commat)).reverse

theorem hostField_snoc {c : UInt8} (h : c ≠ commat) (s : Bytes) : hostField (s ++ [c]) = hostField s ++ [c] := by
  simp [hostField, h]

theorem userField_snoc {c : UInt8} (h : c ≠ commat) (s : Bytes) : userField (s ++ [c]) = userField s := by
  simp [userField, h]

theorem hostField_at (s : Bytes) : hostField (s ++ [commat]) = [] := by
  simp [hostField]

theorem userField_at (s : Bytes) : userField (s ++ [commat]) = hostField s := by
  simp [userField, hostField]

theorem hostField_subset (s : Bytes) : hostField s ⊆ s := by
  intro c hc
  have := List.mem_reverse.mp hc
  exact List.mem_reverse.mp ((List.takeWhile_sublist _).subset this)

theorem commat_hostField (s : Bytes) : commat ∉ hostField s := by
  intro h
  have := List.mem_takeWhile_imp (List.mem_reverse.mp h)
  simp at this

/-! ## The invariant of the loop -/

/-- what the loop knows of the user -/
structure SeenUser (seen : Bytes) (a : Auth) : Prop where
  noSlash : slash ∉ seen
  user : ∀ c ∈ a.user, c ≠ rbrack ∧ c ≠ colon ∧ c ≠ commat ∧ c ≠ slash
  userOpen : lbrack ∉ a.user.tail
  passw : ∀ c ∈ a.passw, Ordinary c
  op : a.user.head? = some lbrack ↔ (userField seen).head? = some lbrack
  userSub : a.user ⊆ seen
  passwSub : a.passw ⊆ seen
  hostSub : a.host ⊆ seen

/-- the brackets: one that was opened before the host field has an `@` behind it -/
structure SeenBracket (seen : Bytes) (a : Auth) : Prop where
  field : a.field = hostField seen
  opened : ∀ b, a.bracket = some b → b ⊆ seen ∧ (commat ∈ b ∨ b = a.field ∧ a.field.head? = some lbrack)
  unopened : a.bracket = none → lbrack ∉ a.field
  user : a.user.head? = some lbrack → ∃ b, a.bracket = some b ∧ commat ∈ b
  once : a.user.head? = some lbrack → lbrack ∉ a.field
  tail : lbrack ∉ a.field.tail

/-- no bracket has been closed -/
structure Open (a : Auth) : Prop where
  host : a.host = []
  nColon : a.nColon = a.field.count colon
  few : a.nColon ≤ MAX_COLON
  close : rbrack ∉ a.field
  last : match a.lastColon with
    | none => a.nColon = 0
    | some l => colon ∉ a.field.drop (l + 1) ∧ a.field = a.field.take l ++ colon :: a.field.drop (l + 1)

/-- a bracket has been closed, and a colon stands behind it -/
structure Closed (a : Auth) : Prop where
  host : commat ∈ a.host ∨ ∃ x p, a.host = lbrack :: (x ++ [rbrack]) ∧ (∀ c ∈ x, Plain c) ∧ x.count colon ≤ 7 ∧
    a.field = a.host ++ colon :: p ∧ (∀ c ∈ p, Ordinary c) ∧ a.lastColon = some a.host.length
  nColon : a.nColon = MAX_COLON
  bracket : a.bracket ≠ none

structure Seen (seen : Bytes) (a : Auth) : Prop where
  user : SeenUser seen a
  bracket : SeenBracket seen a
  host : Open a ∨ Closed a

theorem seen_init : Seen [] Auth.init :=
  ⟨⟨by simp, by simp [Auth.init], by simp [Auth.init], by simp [Auth.init], by simp [Auth.init, userField], by simp [Auth.init],
    by simp [Auth.init], by simp [Auth.init]⟩, ⟨rfl, by simp [Auth.init], by simp [Auth.init], by simp [Auth.init], by simp [Auth.init],
    by simp [Auth.init]⟩, Or.inl ⟨rfl, rfl, by simp [Auth.init], by simp [Auth.init], rfl⟩⟩

theorem SeenUser.push {seen : Bytes} {a a' : Auth} (h : SeenUser seen a) {c : UInt8} (hc : c ≠ commat) (hs : c ≠ slash)
    (hu : a'.user = a.user) (hp : a'.passw = a.passw) (hh : a'.host ⊆ seen ++ [c]) : SeenUser (seen ++ [c]) a' := by
  have hsub : seen ⊆ seen ++ [c] := List.subset_append_left _ _
  refine ⟨?_, by rw [hu]; exact h.user, by rw [hu]; exact h.userOpen, by rw [hp]; exact h.passw, ?_, ?_, ?_, hh⟩
  · simpa [h.noSlash] using Ne.symm hs
  · rw [hu, userField_snoc hc]
    exact h.op
  · rw [hu]
    exact List.Subset.trans h.userSub hsub
  · rw [hp]
    exact List.Subset.trans h.passwSub hsub

theorem SeenBracket.push {seen : Bytes} {a a' : Auth} (h : SeenBracket seen a) {c : UInt8} (hc : c ≠ commat) (ho : c ≠ lbrack)
    (hf : a'.field = a.field ++ [c]) (hb : a'.bracket = a.bracket.map (· ++ [c])) (hu : a'.user = a.user) :
    SeenBracket (seen ++ [c]) a' := by
  refine ⟨by rw [hf, h.field, hostField_snoc hc], ?_, ?_, ?_, ?_, ?_⟩
  · intro b hbb
    rw [hb] at hbb
    obtain ⟨b', hb', rfl⟩ := Option.map_eq_some_iff.mp hbb
    obtain ⟨hsub, hor⟩ := h.opened b' hb'
    refine ⟨List.append_subset.mpr ⟨List.Subset.trans hsub (List.subset_append_left _ _), List.subset_append_right _ _⟩, ?_⟩
    rcases hor with hm | ⟨rfl, hl⟩
    · exact Or.inl (List.mem_append_left _ hm)
    · refine Or.inr ⟨hf.symm, ?_⟩
      rw [hf]
      cases hfa : a.field with
      | nil => rw [hfa] at hl; simp at hl
      | cons d l => rw [hfa] at hl; simpa using hl
  · intro hbn
    rw [hb, Option.map_eq_none_iff] at hbn
    rw [hf]
    simp [h.unopened hbn, Ne.symm ho]
  · intro hul
    rw [hu] at hul
    obtain ⟨b, hbb, hm⟩ := h.user hul
    exact ⟨b ++ [c], by rw [hb, hbb]; rfl, List.mem_append_left _ hm⟩
  · intro hul
    rw [hu] at hul
    rw [hf]
    simp [h.once hul, Ne.symm ho]
  · rw [hf]
    cases hfa : a.field with
    | nil => simp
    | cons d l =>
      have ht := h.tail
      rw [hfa] at ht
      simp only [List.tail_cons] at ht
      simp [ht, Ne.symm ho]

/-- an ordinary byte -/
theorem Seen.afterByte {seen : Bytes} {a : Auth} (h : Seen seen a) {c : UInt8} (hc : Ordinary c) : Seen (seen ++ [c]) (a.push c) := by
  refine ⟨h.user.push hc.commat hc.slash rfl rfl (List.Subset.trans h.user.hostSub (List.subset_append_left _ _)),
    h.bracket.push hc.commat hc.op rfl rfl rfl, ?_⟩
  rcases h.host with ho | hcl
  · refine Or.inl ⟨ho.host, ?_, ho.few, ?_, ?_⟩
    · simp only [Auth.push, List.count_append, List.count_singleton, beq_eq_false_iff_ne.mpr hc.colon, ho.nColon]
      rfl
    · simp [Auth.push, ho.close, Ne.symm hc.close]
    · have hl := ho.last
      cases hla : a.lastColon with
      | none => rw [hla] at hl; simpa [Auth.push, hla] using hl
      | some l =>
        rw [hla] at hl
        obtain ⟨hno, heq⟩ := hl
        have hlen : l + 1 ≤ a.field.length := by
          have := congrArg List.length heq
          simp only [List.length_append, List.length_take, List.length_cons, List.length_drop] at this
          omega
        simp only [Auth.push, hla]
        refine ⟨?_, ?_⟩
        · rw [List.drop_append_of_le_length hlen]
          simp [hno, Ne.symm hc.colon]
        · rw [List.drop_append_of_le_length hlen, List.take_append_of_le_length (by omega)]
          conv_lhs => rw [heq]
          simp
  · refine Or.inr ⟨?_, hcl.nColon, by simpa [Auth.push] using hcl.bracket⟩
    rcases hcl.host with hm | ⟨x, p, h1, h2, h3, h4, h5, h6⟩
    · exact Or.inl hm
    · refine Or.inr ⟨x, p ++ [c], h1, h2, h3, ?_, ?_, h6⟩
      · simp only [Auth.push, h4]
        simp
      · intro d hd
        rcases List.mem_append.mp hd with hd | hd
        · exact h5 d hd
        · rw [List.mem_singleton.mp hd]
          exact hc

/-- a colon; behind a closed bracket there has been one already -/
theorem Seen.afterColon {seen : Bytes} {a a' : Auth} (h : Seen seen a) (ha : a.pushColon = some a') : Seen (seen ++ [colon]) a' := by
  have hc : (colon : UInt8) ≠ commat := by decide
  rw [Auth.pushColon] at ha
  split_ifs at ha with hn
  obtain rfl := Option.some.inj ha
  refine ⟨h.user.push hc (by decide) rfl rfl (List.Subset.trans h.user.hostSub (List.subset_append_left _ _)),
    h.bracket.push hc (by decide) rfl rfl rfl, ?_⟩
  rcases h.host with ho | hcl
  · refine Or.inl ⟨ho.host, ?_, ?_, ?_, ?_⟩
    · simp [Auth.push, ho.nColon]
    · simp only
      omega
    · simp [Auth.push, ho.close]
      decide
    · simp [Auth.push]
  · exact absurd hcl.nColon (by omega)

theorem Seen.field_bytes {seen : Bytes} {a : Auth} (h : Seen seen a) {c : UInt8} (hc : c ∈ a.field) : c ≠ commat ∧ c ≠ slash := by
  rw [h.bracket.field] at hc
  exact ⟨fun he => commat_hostField seen (he ▸ hc), fun he => h.user.noSlash (he ▸ hostField_subset seen hc)⟩

theorem colon_absent {u w : Bytes} (h : (u ++ colon :: w).count colon = 1) : colon ∉ u ∧ colon ∉ w := by
  simp only [List.count_append, List.count_cons_self] at h
  exact ⟨List.count_eq_zero.mp (by omega), List.count_eq_zero.mp (by omega)⟩

/-- an `@` ends the user -/
theorem Seen.afterAt {seen : Bytes} {a a' : Auth} (h : Seen seen a) (ha : a.pushAt = some a') : Seen (seen ++ [commat]) a' := by
  have hsub : seen ⊆ seen ++ [commat] := List.subset_append_left _ _
  rw [Auth.pushAt] at ha
  by_cases hn : a.user ≠ [] ∨ a.nColon > 1
  · rw [if_pos hn] at ha
    simp at ha
  · obtain ⟨-, hn1⟩ := not_or.mp hn
    have ho : Open a := h.host.resolve_right fun hcl => hn1 (by rw [hcl.nColon]; decide)
    have hfield : ∀ c ∈ a.field, c ≠ rbrack ∧ c ≠ commat ∧ c ≠ slash :=
      fun c hc => ⟨fun he => ho.close (he ▸ hc), h.field_bytes hc⟩
    have hfsub : a.field ⊆ seen := by
      rw [h.bracket.field]
      exact hostField_subset seen
    -- the user is what stands before the colon, if there is one
    obtain ⟨u, w, hu, hw, rfl⟩ : ∃ u w, (u = a.field ∧ colon ∉ a.field ∧ w = a.passw ∨ a.field = u ++ colon :: w ∧ colon ∉ u ∧ colon ∉ w) ∧
        w ⊆ seen ∧ a' = { a with field := [], bracket := a.bracket.map (· ++ [commat]), user := u, passw := w, nColon := 0
                                 lastColon := none } := by
      rw [if_neg hn] at ha
      have hl := ho.last
      by_cases h0 : a.nColon = 0
      · have hno : colon ∉ a.field := List.count_eq_zero.mp (ho.nColon.symm.trans h0)
        have hln : a.lastColon = none := by
          cases hla : a.lastColon with
          | none => rfl
          | some l =>
            rw [hla] at hl
            exact absurd (by rw [hl.2]; simp) hno
        refine ⟨a.field, a.passw, Or.inl ⟨rfl, hno, rfl⟩, h.user.passwSub, ?_⟩
        simp only [h0, ne_eq, not_true_eq_false, if_false] at ha
        rw [hln] at ha
        exact (Option.some.inj ha).symm
      · cases hla : a.lastColon with
        | none => rw [hla] at hl; exact absurd hl h0
        | some l =>
          rw [hla] at hl
          have hc1 : (a.field.take l ++ colon :: a.field.drop (l + 1)).count colon = 1 := by
            have := ho.nColon
            rw [← hl.2]
            omega
          refine ⟨a.field.take l, a.field.drop (l + 1), Or.inr ⟨hl.2, colon_absent hc1⟩, List.Subset.trans (List.drop_subset _ _) hfsub, ?_⟩
          simp only [ne_eq, h0, not_false_eq_true, if_true, hla, Option.getD_some] at ha
          exact (Option.some.inj ha).symm
    have husub : u ⊆ a.field ∧ colon ∉ u := by
      rcases hu with ⟨rfl, hno, -⟩ | ⟨hf, hno, -⟩
      · exact ⟨List.Subset.refl _, hno⟩
      · rw [hf]
        exact ⟨List.subset_append_left _ _, hno⟩
    have htail : lbrack ∉ u.tail := by
      rcases hu with ⟨rfl, -, -⟩ | ⟨hf, -, -⟩
      · exact h.bracket.tail
      · have ht := h.bracket.tail
        rw [hf] at ht
        cases u with
        | nil => simp
        | cons c u =>
          simp only [List.cons_append, List.tail_cons] at ht ⊢
          exact fun hm => ht (List.mem_append_left _ hm)
    have hw' : ∀ c ∈ w, Ordinary c := by
      rcases hu with ⟨-, -, rfl⟩ | ⟨hf, -, hno⟩
      · exact h.user.passw
      · intro c hc
        have hcf : c ∈ a.field := by rw [hf]; simp [hc]
        obtain ⟨h1, h2, h3⟩ := hfield c hcf
        refine ⟨h1, fun he => hno (he ▸ hc), h2, ?_, h3⟩
        rintro rfl
        -- the password is not at the start of the field
        have ht := h.bracket.tail
        rw [hf] at ht
        cases u with
        | nil => simp [hc] at ht
        | cons c u => simp [hc] at ht
    have hhead : u.head? = some lbrack ↔ a.field.head? = some lbrack := by
      rcases hu with ⟨rfl, -, -⟩ | ⟨hf, -, -⟩
      · exact Iff.rfl
      · rw [hf]
        cases u with
        | nil => simp [(by decide : ¬colon = lbrack)]
        | cons c u => simp
    refine ⟨⟨?_, ?_, htail, hw', ?_, ?_, List.Subset.trans hw hsub, ?_⟩, ⟨(hostField_at seen).symm, ?_, by simp, ?_, by simp, by simp⟩,
      Or.inl ⟨ho.host, rfl, by simp, by simp, rfl⟩⟩
    · simpa [h.user.noSlash] using (by decide : ¬slash = commat)
    · intro c hc
      obtain ⟨h1, h2, h3⟩ := hfield c (husub.1 hc)
      exact ⟨h1, fun he => husub.2 (he ▸ hc), h2, h3⟩
    · rw [userField_at, ← h.bracket.field]
      exact hhead
    · exact List.Subset.trans husub.1 (List.Subset.trans hfsub hsub)
    · exact List.Subset.trans h.user.hostSub hsub
    · intro b hb
      obtain ⟨b', hb', rfl⟩ := Option.map_eq_some_iff.mp hb
      exact ⟨List.append_subset.mpr ⟨List.Subset.trans (h.bracket.opened b' hb').1 hsub, List.subset_append_right _ _⟩, Or.inl (by simp)⟩
    · intro hul
      have hm : lbrack ∈ a.field := List.mem_of_mem_head? (hhead.mp hul)
      obtain ⟨b, hb⟩ := Option.ne_none_iff_exists'.mp fun hbn => h.bracket.unopened hbn hm
      exact ⟨b ++ [commat], by simp [hb], by simp⟩

/-- an open bracket is the first byte of its field -/
theorem Seen.afterOpen {seen : Bytes} {a a' : Auth} (h : Seen seen a) (ha : a.pushOpen = some a') : Seen (seen ++ [lbrack]) a' := by
  have hc : lbrack ≠ commat := by decide
  rw [Auth.pushOpen] at ha
  by_cases hn : a.bracket.isSome ∨ a.field ≠ []
  · rw [if_pos hn] at ha
    simp at ha
  · obtain ⟨hb, hf⟩ := not_or.mp hn
    have hbn : a.bracket = none := Option.not_isSome_iff_eq_none.mp hb
    have hfn : a.field = [] := not_not.mp hf
    have hhf : hostField (seen ++ [lbrack]) = [lbrack] := by rw [hostField_snoc hc, ← h.bracket.field, hfn, List.nil_append]
    have huser : a.user.head? ≠ some lbrack := by
      intro hu
      obtain ⟨b, hbb, -⟩ := h.bracket.user hu
      rw [hbn] at hbb
      simp at hbb
    rw [if_neg hn] at ha
    obtain rfl := Option.some.inj ha
    refine ⟨h.user.push hc (by decide) rfl rfl (List.Subset.trans h.user.hostSub (List.subset_append_left _ _)),
      ⟨hhf.symm, ?_, by simp, fun hu => absurd hu huser, fun hu => absurd hu huser, by simp⟩, ?_⟩
    · intro b hbb
      obtain rfl := Option.some.inj hbb
      exact ⟨by simp, Or.inr ⟨rfl, rfl⟩⟩
    · have ho : Open a := h.host.resolve_right fun hcl => hcl.bracket hbn
      have h0 : a.nColon = 0 := by rw [ho.nColon, hfn]; rfl
      refine Or.inl ⟨ho.host, by rw [h0]; rfl, ho.few, (by decide : rbrack ∉ [lbrack]), ?_⟩
      have hl := ho.last
      cases hla : a.lastColon with
      | none => exact h0
      | some l =>
        rw [hla, hfn] at hl
        simp at hl

/-- a bracket has just been closed -/
structure JustClosed (seen : Bytes) (a : Auth) : Prop where
  user : SeenUser seen a
  bracket : SeenBracket seen a
  opened : a.bracket ≠ none
  host : commat ∈ a.host ∨ ∃ x, a.host = lbrack :: (x ++ [rbrack]) ∧ (∀ c ∈ x, Plain c) ∧ x.count colon ≤ 7 ∧ a.field = a.host

theorem Seen.afterClose {seen : Bytes} {a a' : Auth} (h : Seen seen a) (ha : a.pushClose = some a') : JustClosed (seen ++ [rbrack]) a' := by
  have hc : rbrack ≠ commat := by decide
  have hsub : seen ⊆ seen ++ [rbrack] := List.subset_append_left _ _
  rw [Auth.pushClose] at ha
  cases hb : a.bracket with
  | none => rw [hb] at ha; simp at ha
  | some b =>
    rw [hb] at ha
    simp only at ha
    split_ifs at ha with hn
    obtain rfl := Option.some.inj ha
    have ho : Open a := h.host.resolve_right fun hcl => hn hcl.nColon.ge
    obtain ⟨hbsub, hor⟩ := h.bracket.opened b hb
    have hhost : b ++ [rbrack] ⊆ seen ++ [rbrack] :=
      List.append_subset.mpr ⟨List.Subset.trans hbsub hsub, List.subset_append_right _ _⟩
    refine ⟨h.user.push hc (by decide) rfl rfl hhost, h.bracket.push hc (by decide) rfl rfl rfl, by simp [Auth.push, hb], ?_⟩
    rcases hor with hm | ⟨rfl, hl⟩
    · exact Or.inl (List.mem_append_left _ hm)
    · -- the host is the field so far
      obtain ⟨x, hx⟩ : ∃ x, a.field = lbrack :: x := by
        cases hf : a.field with
        | nil => rw [hf] at hl; simp at hl
        | cons c x =>
          rw [hf] at hl
          exact ⟨x, by rw [Option.some.inj hl]⟩
      refine Or.inr ⟨x, by rw [hx]; rfl, ?_, ?_, rfl⟩
      · intro c hcx
        have hcf : c ∈ a.field := by rw [hx]; exact List.mem_cons_of_mem _ hcx
        obtain ⟨h1, h2⟩ := h.field_bytes hcf
        have ht := h.bracket.tail
        rw [hx] at ht
        exact ⟨fun he => ho.close (he ▸ hcf), h1, fun he => ht (he ▸ hcx), h2⟩
      · have hcount := ho.nColon
        rw [hx, List.count_cons_of_ne (by decide)] at hcount
        simp only [MAX_COLON] at hn
        omega

theorem JustClosed.afterColon {seen : Bytes} {a a' : Auth} (h : JustClosed seen a)
    (ha : ({ a with nColon := MAX_COLON - 1 } : Auth).pushColon = some a') : Seen (seen ++ [colon]) a' := by
  have hc : colon ≠ commat := by decide
  rw [Auth.pushColon] at ha
  split_ifs at ha with hn
  obtain rfl := Option.some.inj ha
  refine ⟨h.user.push hc (by decide) rfl rfl (List.Subset.trans h.user.hostSub (List.subset_append_left _ _)),
    h.bracket.push hc (by decide) rfl rfl rfl, Or.inr ⟨?_, rfl, by simpa [Auth.push] using h.opened⟩⟩
  rcases h.host with hm | ⟨x, h1, h2, h3, h4⟩
  · exact Or.inl hm
  · exact Or.inr ⟨x, [], h1, h2, h3, by simp [Auth.push, h4], by simp, by simp [Auth.push, h4]⟩

/-! ## The end of the loop -/

/-- the loop ends with its invariant, or behind a closed bracket -/
structure Ended (seen : Bytes) (a : Auth) : Prop where
  user : SeenUser seen a
  bracket : SeenBracket seen a
  host : Open a ∨ Closed a ∨ JustClosed seen a ∧ a.lastColon = none

theorem Seen.ended {seen : Bytes} {a : Auth} (h : Seen seen a) : Ended seen a := ⟨h.user, h.bracket, h.host.imp id Or.inl⟩

/-- the end of the authority behind a closed bracket: there is no port -/
theorem JustClosed.ended {seen : Bytes} {a : Auth} (h : JustClosed seen a) : Ended seen { a with lastColon := none } := by
  have hu : SeenUser seen { a with lastColon := none } :=
    ⟨h.user.noSlash, h.user.user, h.user.userOpen, h.user.passw, h.user.op, h.user.userSub, h.user.passwSub, h.user.hostSub⟩
  have hb : SeenBracket seen { a with lastColon := none } :=
    ⟨h.bracket.field, h.bracket.opened, h.bracket.unopened, h.bracket.user, h.bracket.once, h.bracket.tail⟩
  exact ⟨hu, hb, Or.inr (Or.inr ⟨⟨hu, hb, h.opened, h.host⟩, rfl⟩)⟩

/-- the loop has read `s` up to `rest` -/
def Stops (s seen : Bytes) (a' : Auth) (rest : Bytes) : Prop :=
  ∃ w, s = w ++ rest ∧ (rest = [] ∨ rest.head? = some slash) ∧ slash ∉ w ∧ Ended (seen ++ w) a'

theorem Stops.cons {c : UInt8} {s seen rest : Bytes} {a' : Auth} (hc : c ≠ slash) (h : Stops s (seen ++ [c]) a' rest) :
    Stops (c :: s) seen a' rest := by
  obtain ⟨w, rfl, hr, hw, he⟩ := h
  exact ⟨c :: w, rfl, hr, by simp [hw, Ne.symm hc], by simpa using he⟩

theorem Stops.here {seen rest : Bytes} {a' : Auth} (h : Ended seen a') (hr : rest = [] ∨ rest.head? = some slash) : Stops rest seen a' rest :=
  ⟨[], rfl, hr, by simp, by simpa using h⟩

theorem scan_ended {s seen rest : Bytes} {a a' : Auth} (h : Seen seen a) (hs : scan s a = some (a', rest)) : Stops s seen a' rest := by
  induction hlen : s.length using Nat.strongRecOn generalizing s seen a with
  | ind n ih =>
    cases s with
    | nil =>
      obtain ⟨rfl, rfl⟩ := Prod.mk.inj (Option.some.inj hs)
      exact Stops.here h.ended (Or.inl rfl)
    | cons c s =>
      have hlt : s.length < n := by
        rw [← hlen]
        exact Nat.lt_succ_self _
      rw [scan] at hs
      by_cases h1 : c = rbrack
      · subst h1
        rw [if_pos rfl] at hs
        cases ha : a.pushClose with
        | none => rw [ha] at hs; simp at hs
        | some b =>
          have hj := h.afterClose ha
          have hend := hj.ended
          rw [ha] at hs
          refine Stops.cons (by decide) ?_
          cases s with
          | nil =>
            obtain ⟨rfl, rfl⟩ := Prod.mk.inj (Option.some.inj hs)
            exact Stops.here hend (Or.inl rfl)
          | cons d s =>
            simp only at hs
            by_cases hd : d = slash
            · rw [if_pos hd] at hs
              obtain ⟨rfl, rfl⟩ := Prod.mk.inj (Option.some.inj hs)
              exact Stops.here hend (Or.inr (by rw [hd]; rfl))
            · rw [if_neg hd] at hs
              by_cases hdc : d = colon
              · subst hdc
                simp only [ne_eq, not_true_eq_false, if_false] at hs
                cases hp : ({ b with nColon := MAX_COLON - 1 } : Auth).pushColon with
                | none => rw [hp] at hs; simp at hs
                | some b' =>
                  rw [hp] at hs
                  have hlt' : s.length < n := by
                    rw [← hlen]
                    simp only [List.length_cons]
                    omega
                  exact Stops.cons (by decide) (ih s.length hlt' (hj.afterColon hp) hs rfl)
              · rw [if_pos hdc] at hs
                simp at hs
      · rw [if_neg h1] at hs
        by_cases h2 : c = colon
        · subst h2
          rw [if_pos rfl] at hs
          cases ha : a.pushColon with
          | none => rw [ha] at hs; simp at hs
          | some b =>
            rw [ha] at hs
            exact Stops.cons (by decide) (ih s.length hlt (h.afterColon ha) hs rfl)
        · rw [if_neg h2] at hs
          by_cases h3 : c = commat
          · subst h3
            rw [if_pos rfl] at hs
            cases ha : a.pushAt with
            | none => rw [ha] at hs; simp at hs
            | some b =>
              rw [ha] at hs
              exact Stops.cons (by decide) (ih s.length hlt (h.afterAt ha) hs rfl)
          · rw [if_neg h3] at hs
            by_cases h4 : c = lbrack
            · subst h4
              rw [if_pos rfl] at hs
              cases ha : a.pushOpen with
              | none => rw [ha] at hs; simp at hs
              | some b =>
                rw [ha] at hs
                exact Stops.cons (by decide) (ih s.length hlt (h.afterOpen ha) hs rfl)
            · rw [if_neg h4] at hs
              by_cases h5 : c = slash
              · rw [if_pos h5] at hs
                obtain ⟨rfl, rfl⟩ := Prod.mk.inj (Option.some.inj hs)
                exact Stops.here h.ended (Or.inr (by rw [h5]; rfl))
              · rw [if_neg h5] at hs
                exact Stops.cons h5 (ih s.length hlt (h.afterByte ⟨h1, h2, h3, h4, h5⟩) hs rfl)

/-! ## Host and port -/

/-- the port behind the colon, if there is one -/
def Auth.portAt (a : Auth) : Option ℕ → Bytes
  | none => []
  | some l => a.field.drop (l + 1)

/-- what the end of the loop says about host and port -/
structure HostRead (seen : Bytes) (a : Auth) (port : Bytes) : Prop where
  read : port = a.portAt a.hostPort.2
  field : hostField seen = a.hostPort.1 ++ (if a.hostPort.2 = none then [] else colon :: port)
  bytes : ∀ c ∈ port, Ordinary c
  shape : (a.hostPort.2 ≠ none → port ≠ []) → HostShape a.hostPort.1 port
  once : a.user.head? = some lbrack → a.hostPort.1.head? ≠ some lbrack

theorem mem_of_head {w v : Bytes} {c : UInt8} (h : w.head? = some c) : c ∈ w ++ v := List.mem_append_left _ (List.mem_of_mem_head? h)

/-- unless the host has an `@` in it, which no host name has -/
theorem Ended.hostRead {seen : Bytes} {a : Auth} (h : Ended seen a) (hat : commat ∉ a.hostPort.1) : ∃ port, HostRead seen a port := by
  have hfield := h.bracket.field
  have honce : ∀ w, hostField seen = a.hostPort.1 ++ w → a.user.head? = some lbrack → a.hostPort.1.head? ≠ some lbrack := by
    intro w hw hu hl
    have hm : lbrack ∈ a.field := by
      rw [hfield, hw]
      exact mem_of_head hl
    exact h.bracket.once hu hm
  rcases h.host with ho | hcl | ⟨hj, hl⟩
  · -- the colons decide
    have hbytes : ∀ c ∈ a.field, c ≠ rbrack ∧ c ≠ commat ∧ c ≠ slash :=
      fun c hc => ⟨fun he => ho.close (he ▸ hc), (⟨h.user, h.bracket, Or.inl ho⟩ : Seen seen a).field_bytes hc⟩
    by_cases hn : a.nColon = 1 ∨ a.nColon = MAX_COLON
    · have hlast := ho.last
      cases hla : a.lastColon with
      | none =>
        rw [hla] at hlast
        simp only [MAX_COLON] at hn
        omega
      | some l =>
        rw [hla] at hlast
        obtain ⟨hno, heq⟩ := hlast
        have hhp : a.hostPort = (a.field.take l, some l) := by
          rw [Auth.hostPort, if_pos ho.host, if_pos hn, hla]
          rfl
        have hsplit : hostField seen = a.hostPort.1 ++ (if a.hostPort.2 = none then [] else colon :: a.field.drop (l + 1)) := by
          rw [hhp, ← hfield]
          simpa using heq
        refine ⟨a.field.drop (l + 1), by rw [hhp, Auth.portAt], hsplit, ?_, ?_, honce _ hsplit⟩
        · intro c hc
          obtain ⟨h1, h2, h3⟩ := hbytes c (List.drop_subset _ _ hc)
          refine ⟨h1, fun he => hno (he ▸ hc), h2, ?_, h3⟩
          rintro rfl
          have ht := h.bracket.tail
          rw [heq] at ht
          cases htk : a.field.take l with
          | nil => rw [htk] at ht; simp [hc] at ht
          | cons d w => rw [htk] at ht; simp [hc] at ht
        · intro hne
          have hport : a.field.drop (l + 1) ≠ [] := hne (by rw [hhp]; simp)
          simp only [hhp]
          by_cases he : a.field.take l = []
          · exact HostShape.none he
          · have hcount : a.nColon = (a.field.take l).count colon + 1 := by
              rw [ho.nColon]
              conv_lhs => rw [heq]
              rw [List.count_append, List.count_cons_self, List.count_eq_zero.mpr hno]
            refine HostShape.single he (fun c hc => hbytes c (List.take_subset _ _ hc)) ?_ ?_ (fun hp => absurd hp hport) ?_
            · intro hm
              have ht := h.bracket.tail
              rw [heq] at ht
              cases htk : a.field.take l with
              | nil => exact he htk
              | cons d w =>
                rw [htk] at ht hm
                simp only [List.cons_append, List.tail_cons] at ht hm
                exact ht (List.mem_append_left _ hm)
            · simp only [MAX_COLON] at hn
              omega
            · intro _
              simp only [MAX_COLON] at hn
              omega
    · have hhp : a.hostPort = (a.field, none) := by
        rw [Auth.hostPort, if_pos ho.host, if_neg hn]
      have hsplit : hostField seen = a.hostPort.1 ++ (if a.hostPort.2 = none then [] else colon :: []) := by
        rw [hhp, ← hfield]
        simp
      refine ⟨[], by rw [hhp, Auth.portAt], hsplit, by simp, ?_, honce _ hsplit⟩
      intro _
      rw [hhp]
      by_cases he : a.field = []
      · exact HostShape.none he
      · have hfew := ho.few
        simp only [MAX_COLON] at hn hfew
        refine HostShape.single he hbytes h.bracket.tail ?_ ?_ (fun hp => absurd rfl hp)
        · rw [← ho.nColon]
          omega
        · intro _
          rw [← ho.nColon]
          omega
  · have hne : a.host ≠ [] := by
      rcases hcl.host with hm | ⟨x, p, h1, -⟩
      · exact List.ne_nil_of_mem hm
      · rw [h1]; simp
    have hhp : a.hostPort = (a.host, a.lastColon) := by rw [Auth.hostPort, if_neg hne]
    rcases hcl.host with hm | ⟨x, p, h1, h2, h3, h4, h5, h6⟩
    · rw [hhp] at hat
      exact absurd hm hat
    · have hsplit : hostField seen = a.hostPort.1 ++ (if a.hostPort.2 = none then [] else colon :: p) := by
        rw [hhp, ← hfield, h6]
        simpa using h4
      refine ⟨p, by rw [hhp, h6, Auth.portAt, h4]; simp, hsplit, h5, ?_, honce _ hsplit⟩
      intro _
      rw [hhp]
      exact HostShape.closed x h1 h2 h3
  · have hne : a.host ≠ [] := by
      rcases hj.host with hm | ⟨x, h1, -⟩
      · exact List.ne_nil_of_mem hm
      · rw [h1]; simp
    have hhp : a.hostPort = (a.host, none) := by rw [Auth.hostPort, if_neg hne, hl]
    rcases hj.host with hm | ⟨x, h1, h2, h3, h4⟩
    · rw [hhp] at hat
      exact absurd hm hat
    · have hsplit : hostField seen = a.hostPort.1 ++ (if a.hostPort.2 = none then [] else colon :: []) := by
        rw [hhp, ← hfield]
        simpa using h4
      refine ⟨[], by rw [hhp, Auth.portAt], hsplit, by simp, ?_, honce _ hsplit⟩
      intro _
      rw [hhp]
      exact HostShape.closed x h1 h2 h3

/-! ## The parts of a parsed URL -/

theorem mimeStrU16Set_some {s s' : Bytes} (h : URLImpl.mimeStrU16Set s = some s') : s' = s ∧ s.length < URLImpl.UINT16_MAX := by
  rw [URLImpl.mimeStrU16Set] at h
  split_ifs at h with hl
  exact ⟨(Option.some.inj h).symm, hl⟩

/-- without a slash -/
def dropSlash (s : Bytes) : Bytes := if s.head? = some slash then s.tail else s

/-- what follows the colon of the scheme and up to two slashes -/
def afterSlashes (s : Bytes) : Bytes := if s.head? = some colon then dropSlash (dropSlash s.tail) else s

theorem skipSlashes_some {s s' : Bytes} (h : skipSlashes s = some s') : s' = afterSlashes s := by
  rw [skipSlashes.eq_def] at h
  by_cases hp : 3 < s.length ∧ s.take 3 = [colon, slash, slash]
  · rw [if_pos hp] at h
    obtain rfl := Option.some.inj h
    match s, hp.2 with
    | a :: b :: c :: s, h3 =>
      simp only [List.take_succ_cons, List.take_zero, List.cons.injEq, and_true] at h3
      obtain ⟨rfl, rfl, rfl⟩ := h3
      rfl
  · rw [if_neg hp] at h
    unfold afterSlashes
    cases s with
    | nil => exact (Option.some.inj h).symm
    | cons a s =>
      by_cases ha : a = colon
      · subst ha
        cases s with
        | nil => simp at h
        | cons b s =>
          by_cases hb : b = slash
          · subst hb
            cases s with
            | nil => simp at h
            | cons c s =>
              by_cases hc : c = slash
              · subst hc
                simp only [ne_eq, not_true_eq_false, if_false] at h
                split_ifs at h with he
                obtain rfl := Option.some.inj h
                rfl
              · simp only [ne_eq, not_true_eq_false, if_false, hc, not_false_eq_true, if_true] at h
                rw [← Option.some.inj h]
                simp [dropSlash, hc]
          · simp only [ne_eq, not_true_eq_false, if_false, hb, not_false_eq_true, if_true] at h
            rw [← Option.some.inj h]
            simp [dropSlash, hb]
      · simp only [ne_eq, ha, not_false_eq_true, if_true] at h
        rw [← Option.some.inj h]
        simp [ha]

/-- what `url_parse_internet` has set, from the authority `seen` -/
structure ReadAuthority (seen : Bytes) (url : URLImpl) : Prop where
  shape : Shape url
  accepted : Accepted url
  field : hostField seen = url.host ++ (if url.port = [] then [] else colon :: url.port)
  user : url.user.head? = some lbrack ↔ (userField seen).head? = some lbrack
  sub : ∀ c ∈ url.user ++ url.password ++ url.host ++ url.port, c ∈ seen

theorem setUser_some {url url' : URLImpl} {a : Auth} (h : setUser url a = some url') (h₀ : url.user = [] ∧ url.password = []) :
    ∃ pw, url' = { url with user := a.user, password := pw } ∧ (pw = a.passw ∨ pw = []) ∧ (a.user = [] → pw = []) ∧
      a.user.length < URLImpl.UINT16_MAX ∧ pw.length < URLImpl.UINT16_MAX := by
  have hpos : ([] : Bytes).length < URLImpl.UINT16_MAX := by decide
  rw [setUser] at h
  by_cases hu : a.user = []
  · rw [if_pos hu] at h
    obtain rfl := Option.some.inj h
    refine ⟨[], ?_, Or.inr rfl, fun _ => rfl, by rw [hu]; exact hpos, hpos⟩
    cases url
    simp_all
  · rw [if_neg hu] at h
    obtain ⟨url₁, h1, h2⟩ := Option.bind_eq_some_iff.mp h
    obtain ⟨u, hu1, rfl⟩ := Option.map_eq_some_iff.mp h1
    obtain ⟨rfl, hul⟩ := mimeStrU16Set_some hu1
    by_cases hp : a.passw = []
    · rw [if_pos hp] at h2
      obtain rfl := Option.some.inj h2
      refine ⟨[], ?_, Or.inr rfl, fun _ => rfl, hul, hpos⟩
      rw [← h₀.2]
    · rw [if_neg hp] at h2
      obtain ⟨p, hp1, rfl⟩ := Option.map_eq_some_iff.mp h2
      obtain ⟨rfl, hpl⟩ := mimeStrU16Set_some hp1
      exact ⟨_, rfl, Or.inl rfl, fun he => absurd he hu, hul, hpl⟩

theorem setHost_some {url url' : URLImpl} {host : Bytes} (h : setHost url host = some url') (h₀ : url.host = []) :
    url' = { url with host := host } ∧ host.all isHostChar = true ∧ host.length < URLImpl.UINT16_MAX := by
  rw [setHost] at h
  split_ifs at h with he hc
  · obtain rfl := Option.some.inj h
    subst he
    refine ⟨?_, rfl, by decide⟩
    rw [← h₀]
  · obtain ⟨s, hs, rfl⟩ := Option.map_eq_some_iff.mp h
    obtain ⟨rfl, hl⟩ := mimeStrU16Set_some hs
    exact ⟨rfl, hc, hl⟩

theorem setPort_some {url url' : URLImpl} {a : Auth} {l : Option ℕ} (h : setPort url a l = some url')
    (h₀ : url.port = [] ∧ url.portNumber = 0) :
    ∃ port, port = a.portAt l ∧ (l ≠ none → port ≠ []) ∧
      url' = { url with port := port, portNumber := URLImpl.portValue port } ∧ port.length < URLImpl.UINT16_MAX := by
  cases l with
  | none =>
    obtain rfl := Option.some.inj h
    refine ⟨[], rfl, fun hne => absurd rfl hne, ?_, by decide⟩
    cases url
    simp_all [URLImpl.portValue]
  | some l =>
    rw [setPort] at h
    split_ifs at h with he
    obtain ⟨s, hs, rfl⟩ := Option.map_eq_some_iff.mp h
    obtain ⟨rfl, hl⟩ := mimeStrU16Set_some hs
    exact ⟨_, rfl, fun _ => he, rfl, hl⟩

theorem commat_not_hostChar {host : Bytes} (h : host.all isHostChar = true) : commat ∉ host := by
  intro hm
  have := List.all_eq_true.mp h _ hm
  exact absurd this (by decide)

theorem parseInternet_some {url₀ url : URLImpl} {s rest : Bytes}
    (h₀ : url₀.user = [] ∧ url₀.password = [] ∧ url₀.host = [] ∧ url₀.port = [] ∧ url₀.portNumber = 0)
    (h : parseInternet url₀ s = some (url, rest)) :
    ∃ seen, (∃ rest', afterSlashes s = seen ++ rest' ∧ (rest' = [] ∨ rest'.head? = some slash) ∧
        rest = if rest'.head? = some slash then rest'.tail else rest') ∧ slash ∉ seen ∧ ReadAuthority seen url ∧
      url = { url₀ with user := url.user, password := url.password, host := url.host, port := url.port, portNumber := url.portNumber } := by
  obtain ⟨hu₀, hp₀, hh₀, hpt₀, hn₀⟩ := h₀
  rw [parseInternet] at h
  obtain ⟨s', hskip, h⟩ := Option.bind_eq_some_iff.mp h
  obtain ⟨⟨a, rest'⟩, hscan, h⟩ := Option.bind_eq_some_iff.mp h
  obtain ⟨url₁, huser, h⟩ := Option.bind_eq_some_iff.mp h
  obtain ⟨url₂, hhost, h⟩ := Option.bind_eq_some_iff.mp h
  obtain ⟨url₃, hport, h⟩ := Option.bind_eq_some_iff.mp h
  obtain ⟨rfl, rfl⟩ := Prod.mk.inj (Option.some.inj h)
  obtain ⟨pw, rfl, hpw, hpwu, hul, hpl⟩ := setUser_some huser ⟨hu₀, hp₀⟩
  obtain ⟨rfl, hchars, hhl⟩ := setHost_some hhost hh₀
  obtain ⟨port, hpeq, hpne, rfl, hptl⟩ := setPort_some hport ⟨hpt₀, hn₀⟩
  obtain ⟨w, hw, hr, hns, hend⟩ := scan_ended seen_init hscan
  rw [List.nil_append] at hend
  obtain ⟨port', hread⟩ := hend.hostRead (commat_not_hostChar hchars)
  obtain rfl : port = port' := hpeq.trans hread.read.symm
  have hpnone : a.hostPort.2 = none ↔ port = [] := by
    constructor
    · intro hl
      rw [hpeq, hl, Auth.portAt]
    · intro hp
      by_contra hl
      exact hpne hl hp
  have hfield : hostField w = a.hostPort.1 ++ (if port = [] then [] else colon :: port) := by
    have hf := hread.field
    simp only [hpnone] at hf
    exact hf
  have hsub : ∀ c ∈ a.hostPort.1 ++ port, c ∈ w := by
    intro c hc
    apply hostField_subset w
    rw [hfield]
    rcases List.mem_append.mp hc with hc | hc
    · exact List.mem_append_left _ hc
    · rw [if_neg (List.ne_nil_of_mem hc)]
      exact List.mem_append_right _ (List.mem_cons_of_mem _ hc)
  refine ⟨w, ⟨rest', by rw [← skipSlashes_some hskip, hw], hr, rfl⟩, hns, ⟨⟨hend.user.user, hend.user.userOpen, ?_, hpwu, hread.bytes, rfl,
    hread.shape hpne, hread.once⟩, ⟨hul, hpl, hchars, hhl, hptl⟩, hfield, hend.user.op, ?_⟩, rfl⟩
  · rcases hpw with rfl | rfl
    · exact hend.user.passw
    · simp
  · intro c hc
    rcases List.mem_append.mp hc with hc | hc
    · rcases List.mem_append.mp hc with hc | hc
      · rcases List.mem_append.mp hc with hc | hc
        · exact hend.user.userSub hc
        · rcases hpw with rfl | rfl
          · exact hend.user.passwSub hc
          · simp at hc
      · exact hsub c (List.mem_append_left _ hc)
    · exact hsub c (List.mem_append_right _ hc)

theorem part_some {mark : UInt8} {ok : UInt8 → Bool} {s s' : Bytes} {w : Option Bytes} (h : part mark ok s = (w, s')) :
    (∀ c ∈ w.getD [], ok c = true) ∧ (∀ c ∈ w.getD [], c ∈ s) ∧ ∀ c ∈ s', c ∈ s := by
  unfold part at h
  cases s with
  | nil =>
    obtain ⟨rfl, rfl⟩ := Prod.mk.inj h
    simp
  | cons d s =>
    simp only at h
    split_ifs at h
    · obtain ⟨rfl, rfl⟩ := Prod.mk.inj h
      refine ⟨fun c hc => List.mem_takeWhile_imp hc, ?_, ?_⟩
      · exact fun c hc => List.mem_cons_of_mem d ((List.takeWhile_sublist _).subset hc)
      · exact fun c hc => List.mem_cons_of_mem d ((List.dropWhile_sublist _).subset hc)
    · obtain ⟨rfl, rfl⟩ := Prod.mk.inj h
      simp

theorem elim_set {url url' : URLImpl} {w : Option Bytes} {f : URLImpl → Bytes → URLImpl} (h₀ : f url [] = url)
    (h : w.elim (some url) (fun s => (URLImpl.mimeStrU16Set s).map fun s => f url s) = some url') :
    url' = f url (w.getD []) ∧ (w.getD []).length < URLImpl.UINT16_MAX := by
  cases w with
  | none =>
    obtain rfl := Option.some.inj h
    exact ⟨h₀.symm, by decide⟩
  | some s =>
    obtain ⟨s', hs, rfl⟩ := Option.map_eq_some_iff.mp h
    obtain ⟨rfl, hl⟩ := mimeStrU16Set_some hs
    exact ⟨rfl, hl⟩

/-- what is set behind the authority -/
theorem parsePath_some {url₀ url : URLImpl} {s : Bytes} (h₀ : url₀.path = [] ∧ url₀.params = [] ∧ url₀.query = [] ∧ url₀.fragment = [])
    (h : parsePath url₀ s = some url) :
    PathShape url ∧ (∀ c ∈ url.path ++ url.params ++ url.query ++ url.fragment, c ∈ s) ∧
      url = { url₀ with path := url.path, params := url.params, query := url.query, fragment := url.fragment } := by
  obtain ⟨hp₀, hpa₀, hq₀, hf₀⟩ := h₀
  rw [parsePath] at h
  by_cases hs : s = []
  · rw [if_pos hs] at h
    obtain rfl := Option.some.inj h
    refine ⟨⟨by simp [hp₀], by simp [hpa₀], by simp [hq₀], ?_, ?_, ?_, ?_⟩, by simp [hp₀, hpa₀, hq₀, hf₀], rfl⟩
    all_goals first | rw [hp₀] | rw [hpa₀] | rw [hq₀] | rw [hf₀]
    all_goals decide
  · rw [if_neg hs] at h
    obtain ⟨url₁, h1, h⟩ := Option.bind_eq_some_iff.mp h
    obtain ⟨p, hp, rfl⟩ := Option.map_eq_some_iff.mp h1
    obtain ⟨rfl, hpl⟩ := mimeStrU16Set_some hp
    rcases hpart₁ : part semi isParamsByte (s.dropWhile isPathByte) with ⟨pa, s₁⟩
    rcases hpart₂ : part quest isQueryByte s₁ with ⟨q, s₂⟩
    rcases hpart₃ : part sharp (fun _ => true) s₂ with ⟨f, s₃⟩
    simp only [hpart₁, hpart₂, hpart₃] at h
    obtain ⟨url₂, h2, h⟩ := Option.bind_eq_some_iff.mp h
    obtain ⟨url₃, h3, h4⟩ := Option.bind_eq_some_iff.mp h
    obtain ⟨rfl, hpal⟩ := elim_set (f := fun url s => { url with params := s }) (by simp only [← hpa₀]) h2
    obtain ⟨rfl, hql⟩ := elim_set (f := fun url s => { url with query := s }) (by simp only [← hq₀]) h3
    obtain ⟨rfl, hfl⟩ := elim_set (f := fun url s => { url with fragment := s }) (by simp only [← hf₀]) h4
    obtain ⟨hpa, hpas, hs₁⟩ := part_some hpart₁
    obtain ⟨hq, hqs, hs₂⟩ := part_some hpart₂
    obtain ⟨-, hfs, -⟩ := part_some hpart₃
    have hdrop : ∀ c ∈ s.dropWhile isPathByte, c ∈ s := fun c hc => (List.dropWhile_sublist _).subset hc
    refine ⟨⟨fun c hc => List.mem_takeWhile_imp hc, hpa, hq, hpl, hpal, hql, hfl⟩, ?_, rfl⟩
    intro c hc
    rcases List.mem_append.mp hc with hc | hc
    · rcases List.mem_append.mp hc with hc | hc
      · rcases List.mem_append.mp hc with hc | hc
        · exact (List.takeWhile_sublist _).subset hc
        · exact hdrop c (hpas c hc)
      · exact hdrop c (hs₁ c (hqs c hc))
    · exact hdrop c (hs₁ c (hs₂ c (hfs c hc)))

theorem schemeSet_null {url : URLImpl} {idx : Option ℕ} {s : Bytes} (h : URLImpl.null.schemeSet idx s = some url) :
    url = { URLImpl.null with scheme := url.scheme, schemeWksIdx := url.schemeWksIdx } := by
  obtain ⟨w, -, rfl⟩ := Option.map_eq_some_iff.mp h
  rfl

/-- nothing but the scheme is set -/
theorem parseScheme_null {url : URLImpl} {s rest : Bytes} (h : parseScheme URLImpl.null s = some (url, rest)) :
    url = { URLImpl.null with scheme := url.scheme, schemeWksIdx := url.schemeWksIdx } := by
  have hset : ∀ {idx : Option ℕ} {w r : Bytes}, (URLImpl.null.schemeSet idx w).map (fun url => (url, r)) = some (url, rest) →
      url = { URLImpl.null with scheme := url.scheme, schemeWksIdx := url.schemeWksIdx } := by
    intro idx w r hm
    obtain ⟨url', hs, he⟩ := Option.map_eq_some_iff.mp hm
    obtain ⟨rfl, -⟩ := Prod.mk.inj he
    exact schemeSet_null hs
  have hnull : ∀ {r : Bytes}, some (URLImpl.null, r) = some (url, rest) →
      url = { URLImpl.null with scheme := url.scheme, schemeWksIdx := url.schemeWksIdx } := by
    intro r hm
    obtain ⟨rfl, -⟩ := Prod.mk.inj (Option.some.inj hm)
    rfl
  rw [parseScheme] at h
  cases hcur : s.dropWhile (· == 32) with
  | nil => rw [hcur] at h; simp at h
  | cons c w =>
    rw [hcur] at h
    simp only at h
    split_ifs at h
    · exact hset h
    · cases hdw : (c :: w).dropWhile (· != colon) with
      | nil => rw [hdw] at h; exact hnull h
      | cons d r =>
        rw [hdw] at h
        simp only at h
        split_ifs at h
        · exact hset h
        · exact hnull h
    · exact hnull h

/-- the scheme is what stands before the first colon -/
theorem parseScheme_some {url : URLImpl} {s rest : Bytes} (h : parseScheme URLImpl.null s = some (url, rest)) (hne : url.scheme ≠ []) :
    SchemeShape url ∧ (∀ c ∈ url.scheme, c ∈ s) ∧ (∀ c ∈ rest, c ∈ s) ∧
      rest = (s.dropWhile (· == 32)).dropWhile (· != colon) ∧
      url = { URLImpl.null with scheme := url.scheme, schemeWksIdx := url.schemeWksIdx } := by
  have hsub : ∀ c ∈ s.dropWhile (· == 32), c ∈ s := fun c hc => (List.dropWhile_sublist _).subset hc
  have hsp : ∀ c w, s.dropWhile (· == 32) = c :: w → c ≠ 32 := by
    intro c w hw he
    have := List.head?_dropWhile_not (· == (32 : UInt8)) s
    rw [hw] at this
    simp [he] at this
  rw [parseScheme] at h
  cases hcur : s.dropWhile (· == 32) with
  | nil => rw [hcur] at h; simp at h
  | cons c w =>
    rw [hcur] at h
    simp only at h
    have hcs := hsp c w hcur
    rw [hcur] at hsub
    by_cases hhttp : (text "http:").isPrefixOf (c :: w) = true
    · rw [if_pos hhttp] at h
      obtain ⟨t, ht⟩ := List.isPrefixOf_iff_prefix.mp hhttp
      have htake : (c :: w).take 4 = text "http" := by rw [← ht]; rfl
      have hdrop : (c :: w).drop 4 = (c :: w).dropWhile (· != colon) := by rw [← ht]; rfl
      rw [htake, hdrop] at h
      obtain ⟨url', hset, he⟩ := Option.map_eq_some_iff.mp h
      obtain ⟨rfl, rfl⟩ := Prod.mk.inj he
      obtain ⟨sch, hsch, rfl⟩ := Option.map_eq_some_iff.mp hset
      obtain ⟨rfl, hl⟩ := mimeStrU16Set_some hsch
      refine ⟨⟨hne, by decide, by decide, by decide, rfl, hl⟩, ?_, ?_, rfl, rfl⟩
      · intro d hd
        have hd' : d ∈ (c :: w).take 4 := by rw [htake]; exact hd
        exact hsub d (List.mem_of_mem_take hd')
      · exact fun d hd => hsub d ((List.dropWhile_sublist _).subset hd)
    · rw [if_neg hhttp] at h
      have hnone : ∀ {r}, some (URLImpl.null, r) = some (url, rest) → False := by
        intro r hr
        obtain ⟨rfl, -⟩ := Prod.mk.inj (Option.some.inj hr)
        exact hne rfl
      by_cases hc : c ≠ slash
      · rw [if_pos hc] at h
        cases hdw : (c :: w).dropWhile (· != colon) with
        | nil => rw [hdw] at h; exact (hnone h).elim
        | cons d r =>
          rw [hdw] at h
          simp only at h
          split_ifs at h with hok
          · obtain ⟨url', hset, he⟩ := Option.map_eq_some_iff.mp h
            obtain ⟨rfl, rfl⟩ := Prod.mk.inj he
            obtain ⟨sch, hsch, rfl⟩ := Option.map_eq_some_iff.mp hset
            obtain ⟨rfl, hl⟩ := mimeStrU16Set_some hsch
            have hcolon : ∀ d ∈ (c :: w).takeWhile (· != colon), d ≠ colon := by
              intro d hd
              simpa using List.mem_takeWhile_imp hd
            have hhead : ∀ d, ((c :: w).takeWhile (· != colon)).head? = some d → d = c := by
              intro d hd
              rw [List.takeWhile_cons] at hd
              split_ifs at hd
              · exact (Option.some.inj hd).symm
              · simp at hd
            refine ⟨⟨hne, fun he => hcs (hhead 32 he).symm, fun he => hc (hhead slash he).symm, fun hm => hcolon _ hm rfl, ?_, hl⟩, ?_, ?_,
              rfl, rfl⟩
            · rw [if_neg]
              intro hk
              apply hhttp
              -- the scheme and the colon would be the first five bytes
              obtain rfl : d = colon := by
                have := List.head?_dropWhile_not (· != colon) (c :: w)
                rw [hdw] at this
                simpa using this
              have hcat := List.takeWhile_append_dropWhile (p := (· != colon)) (l := c :: w)
              have hk' : (c :: w).takeWhile (· != colon) = text "http" := hk
              rw [hk', hdw] at hcat
              rw [← hcat]
              rfl
            · intro e hm
              have hm' : e ∈ (c :: w).takeWhile (· != colon) := hm
              exact hsub e ((List.takeWhile_sublist _).subset hm')
            · intro e hm
              rw [← hdw] at hm
              exact hsub e ((List.dropWhile_sublist _).subset hm)
          · exact (hnone h).elim
      · rw [if_neg hc] at h
        exact (hnone h).elim

/-! ## The texts that are not stable -/

/-- the authority of a text with a scheme -/
def authority (s : Bytes) : Bytes := (afterSlashes ((s.dropWhile (· == 32)).dropWhile (· != colon))).takeWhile (· != slash)

/-- the host field is a colon and a port with a value -/
def PortWithoutHost (f : Bytes) : Prop := f.head? = some colon ∧ f.count colon = 1 ∧ URLImpl.portValue f.tail ≠ 0

/-- a host field whose host the printer puts into brackets -/
def AddsBrackets (f : Bytes) : Prop := f.head? ≠ some lbrack ∧ 2 ≤ f.count colon ∧ colon ∈ f.take 5

/-- the length of the host in its field: one or eight colons mean a port -/
def hostLength (f : Bytes) : ℕ :=
  if f.count colon = 1 ∨ f.count colon = MAX_COLON then f.length - ((f.reverse.takeWhile (· != colon)).length + 1) else f.length

/-- a text that the printed URL does not lead back to -/
def Unstable (s : Bytes) : Prop :=
  PortWithoutHost (hostField (authority s)) ∨
    AddsBrackets (hostField (authority s)) ∧
      ((userField (authority s)).head? = some lbrack ∨ URLImpl.UINT16_MAX ≤ hostLength (hostField (authority s)) + 2)

section Field

variable {seen : Bytes} {url : URLImpl}

theorem ReadAuthority.count_port (h : ReadAuthority seen url) : url.port.count colon = 0 :=
  List.count_eq_zero.mpr fun hm => (h.shape.port _ hm).colon rfl

theorem ReadAuthority.count_field (h : ReadAuthority seen url) :
    (hostField seen).count colon = url.host.count colon + if url.port = [] then 0 else 1 := by
  rw [h.field, List.count_append]
  split_ifs
  · rfl
  · rw [List.count_cons_self, h.count_port]

theorem ReadAuthority.head_field (h : ReadAuthority seen url) (hne : url.host ≠ []) : (hostField seen).head? = url.host.head? := by
  rw [h.field]
  cases hh : url.host with
  | nil => exact absurd hh hne
  | cons c w => rfl

theorem ReadAuthority.portWithoutHost_iff (h : ReadAuthority seen url) :
    PortWithoutHost (hostField seen) ↔ url.host = [] ∧ url.portNumber ≠ 0 := by
  have hpn := h.shape.portNumber
  constructor
  · rintro ⟨hhead, hcount, hval⟩
    by_cases hne : url.host = []
    · refine ⟨hne, ?_⟩
      rw [h.field, hne, List.nil_append] at hhead hval
      by_cases hp : url.port = []
      · rw [if_pos hp] at hhead
        simp at hhead
      · rw [if_neg hp] at hval
        rw [hpn]
        exact hval
    · -- a host that starts with a colon has more of them
      exfalso
      rw [h.head_field hne] at hhead
      have hmem : colon ∈ url.host := List.mem_of_mem_head? hhead
      have hpos : 0 < url.host.count colon := List.count_pos_iff.mpr hmem
      have hcf := h.count_field
      cases h.shape.host with
      | none he => exact hne he
      | single ne bytes op few all split =>
        by_cases hp : url.port = []
        · rw [if_pos hp] at hcf
          exact all hp (by omega)
        · rw [if_neg hp] at hcf
          omega
      | closed x hx bytes few =>
        rw [hx] at hhead
        exact absurd (Option.some.inj hhead) (by decide)
  · rintro ⟨he, hn⟩
    have hp : url.port ≠ [] := by
      intro hp
      rw [hpn, hp] at hn
      exact hn rfl
    have hf : hostField seen = colon :: url.port := by
      rw [h.field, he, if_neg hp, List.nil_append]
    rw [PortWithoutHost, hf]
    refine ⟨rfl, ?_, ?_⟩
    · rw [List.count_cons_self, h.count_port]
    · rw [List.tail_cons, ← hpn]
      exact hn

theorem ReadAuthority.addsBrackets_iff (h : ReadAuthority seen url) : AddsBrackets (hostField seen) ↔ bracketP url.host = true := by
  have hbp : bracketP url.host = true ↔ url.host.head? ≠ some lbrack ∧ colon ∈ url.host.take 5 := by
    simp [bracketP]
  have hcf := h.count_field
  rw [hbp]
  constructor
  · rintro ⟨hhead, hcount, hmem⟩
    have hne : url.host ≠ [] := by
      intro he
      rw [he] at hcf
      split_ifs at hcf <;> simp at hcf <;> omega
    rw [h.head_field hne] at hhead
    refine ⟨hhead, ?_⟩
    cases h.shape.host with
    | none he => exact absurd he hne
    | closed x hx bytes few => exact absurd (by rw [hx]; rfl) hhead
    | single ne bytes op few all split =>
      by_cases hp : url.port = []
      · rw [h.field, if_pos hp, List.append_nil] at hmem
        exact hmem
      · rw [if_neg hp] at hcf
        have hlen : 7 ≤ url.host.length := by
          have h7 := split hp
          have hle := List.count_le_length (a := colon) (l := url.host)
          omega
        rw [h.field, List.take_append_of_le_length (by omega)] at hmem
        exact hmem
  · rintro ⟨hhead, hmem⟩
    have hmem' : colon ∈ url.host := List.mem_of_mem_take hmem
    have hpos : 0 < url.host.count colon := List.count_pos_iff.mpr hmem'
    have hne : url.host ≠ [] := List.ne_nil_of_mem hmem'
    refine ⟨by rw [h.head_field hne]; exact hhead, ?_, ?_⟩
    · rw [hcf]
      cases h.shape.host with
      | none he => exact absurd he hne
      | closed x hx bytes few => exact absurd (by rw [hx]; rfl) hhead
      | single ne bytes op few all split =>
        by_cases hp : url.port = []
        · have := all hp
          omega
        · rw [if_neg hp]
          omega
    · rw [h.field, List.take_append]
      exact List.mem_append_left _ hmem

theorem ReadAuthority.hostLength_eq (h : ReadAuthority seen url) (hb : bracketP url.host = true) :
    hostLength (hostField seen) = url.host.length := by
  have hcf := h.count_field
  have hbp : url.host.head? ≠ some lbrack ∧ colon ∈ url.host.take 5 := by simpa [bracketP] using hb
  have hmem : colon ∈ url.host := List.mem_of_mem_take hbp.2
  have hpos : 0 < url.host.count colon := List.count_pos_iff.mpr hmem
  have hne : url.host ≠ [] := List.ne_nil_of_mem hmem
  cases h.shape.host with
  | none he => exact absurd he hne
  | closed x hx bytes few => exact absurd (by rw [hx]; rfl) hbp.1
  | single ne bytes op few all split =>
    rw [hostLength]
    by_cases hp : url.port = []
    · rw [if_pos hp] at hcf
      have := all hp
      rw [if_neg (by simp only [MAX_COLON]; omega), h.field, if_pos hp, List.append_nil]
    · rw [if_neg hp] at hcf
      have h7 := split hp
      rw [if_pos (by simp only [MAX_COLON]; omega), h.field, if_neg hp]
      have hok : ∀ c ∈ url.port.reverse, (c != colon) = true := by
        intro c hc
        exact bne_iff_ne.mpr (h.shape.port c (List.mem_reverse.mp hc)).colon
      have htake : (url.host ++ colon :: url.port).reverse.takeWhile (· != colon) = url.port.reverse := by
        rw [List.reverse_append, List.reverse_cons, List.append_assoc]
        exact (takeWhile_stop hok (by simp)).1
      rw [htake]
      simp only [List.length_append, List.length_cons, List.length_reverse]
      omega

end Field

/-! ## The fixed point -/

/-- the same URL, up to brackets around the host -/
structure SameUrl (url url' : URLImpl) : Prop where
  scheme : url'.scheme = url.scheme ∧ url'.schemeWksIdx = url.schemeWksIdx
  user : url'.user = url.user
  host : url'.host = url.host ∨ url'.host = lbrack :: url.host ++ [rbrack]
  portNumber : url'.portNumber = url.portNumber
  path : url'.path = url.path
  params : url'.params = url.params
  query : url'.query = url.query
  fragment : url'.fragment = url.fragment

/-- all that the parser says of a text with a scheme -/
structure ParsedFrom (s : Bytes) (url : URLImpl) : Prop where
  scheme : SchemeShape url
  authority : ReadAuthority (authority s) url
  path : PathShape url
  sub : ∀ c ∈ url.scheme ++ (url.user ++ url.password ++ url.host ++ url.port) ++ (url.path ++ url.params ++ url.query ++ url.fragment), c ∈ s

theorem dropSlash_subset (s : Bytes) : dropSlash s ⊆ s := by
  unfold dropSlash
  split_ifs
  · exact List.tail_subset s
  · exact List.Subset.refl s

theorem afterSlashes_subset (s : Bytes) : afterSlashes s ⊆ s := by
  unfold afterSlashes
  split_ifs
  · exact List.Subset.trans (dropSlash_subset _) (List.Subset.trans (dropSlash_subset _) (List.tail_subset s))
  · exact List.Subset.refl s

theorem urlParse_some {strict : Bool} {s : Bytes} {url : URLImpl} (h : urlParse strict s = some url) (hne : url.scheme ≠ []) :
    ParsedFrom s url := by
  rw [urlParse] at h
  split_ifs at h
  obtain ⟨⟨url₁, s₁⟩, hscheme, h⟩ := Option.bind_eq_some_iff.mp h
  obtain ⟨⟨url₂, s₂⟩, hinternet, hpath⟩ := Option.bind_eq_some_iff.mp h
  simp only at hpath
  have hnull := parseScheme_null hscheme
  obtain ⟨seen, ⟨rest, hafter, hrest, hs₂⟩, hslash, hread, hurl₂⟩ := parseInternet_some (by rw [hnull]; exact ⟨rfl, rfl, rfl, rfl, rfl⟩) hinternet
  obtain ⟨hshape, hsub, hurl⟩ := parsePath_some (by rw [hurl₂, hnull]; exact ⟨rfl, rfl, rfl, rfl⟩) hpath
  -- what is set later does not touch what was set before
  have hs : url.scheme = url₁.scheme ∧ url.schemeWksIdx = url₁.schemeWksIdx := by
    rw [hurl, hurl₂]
    exact ⟨rfl, rfl⟩
  have hauth : url.user = url₂.user ∧ url.password = url₂.password ∧ url.host = url₂.host ∧ url.port = url₂.port ∧
      url.portNumber = url₂.portNumber := by
    rw [hurl]
    exact ⟨rfl, rfl, rfl, rfl, rfl⟩
  rw [hs.1] at hne
  obtain ⟨hss, hsubs, hsubr, hs₁, -⟩ := parseScheme_some hscheme hne
  have hseen : seen = authority s := by
    rw [authority, ← hs₁, hafter]
    refine (@takeWhile_stop (· != slash) seen rest ?_ ?_).1.symm
    · exact fun c hc => bne_iff_ne.mpr fun he => hslash (he ▸ hc)
    · intro c hc
      rcases hrest with rfl | hr
      · simp at hc
      · rw [hr] at hc
        rw [← Option.some.inj hc]
        rfl
  have hin : ∀ c ∈ seen ++ rest, c ∈ s := by
    intro c hc
    rw [← hafter] at hc
    exact hsubr c (afterSlashes_subset s₁ hc)
  obtain ⟨h1, h2, h3, h4, h5⟩ := hauth
  refine ⟨?_, ?_, hshape, ?_⟩
  · obtain ⟨g1, g2, g3, g4, g5, g6⟩ := hss
    rw [← hs.1] at g1 g2 g3 g4 g5 g6
    rw [← hs.2] at g5
    exact ⟨g1, g2, g3, g4, g5, g6⟩
  · rw [← hseen]
    obtain ⟨⟨a1, a2, a3, a4, a5, a6, a7, a8⟩, ⟨b1, b2, b3, b4, b5⟩, c1, c2, c3⟩ := hread
    rw [← h1] at a1 a2 a4 a8 b1 c2 c3
    rw [← h2] at a3 a4 b2 c3
    rw [← h3] at a7 a8 b3 b4 c1 c3
    rw [← h4] at a5 a6 a7 b5 c1 c3
    rw [← h5] at a6
    exact ⟨⟨a1, a2, a3, a4, a5, a6, a7, a8⟩, ⟨b1, b2, b3, b4, b5⟩, c1, c2, c3⟩
  · intro c hc
    rcases List.mem_append.mp hc with hc | hc
    · rcases List.mem_append.mp hc with hc | hc
      · rw [hs.1] at hc
        exact hsubs c hc
      · rw [h1, h2, h3, h4] at hc
        exact hin c (List.mem_append_left _ (hread.sub c hc))
    · have hc' := hsub c hc
      rw [hs₂] at hc'
      refine hin c (List.mem_append_right _ ?_)
      split_ifs at hc'
      · exact List.mem_of_mem_tail hc'
      · exact hc'

/-- a host that is too long with its brackets is not read back -/
theorem parseInternet_long {url : URLImpl} (h : Shape url) (hb : bracketP url.host = true)
    (hu : ¬(url.user.head? = some lbrack ∧ bracketP url.host = true)) (hl : URLImpl.UINT16_MAX ≤ (printHost url.host).length)
    (url₀ : URLImpl) (s : Bytes) :
    parseInternet url₀ (colon :: slash :: (slash :: (printUser url ++ (printHostPort url ++ slash :: s)))) = none := by
  obtain ⟨a, hs, hf⟩ := scan_printed h hu s
  have hne : url.host ≠ [] := by
    intro he
    rw [he] at hb
    exact absurd hb (by decide)
  have hne' : printHost url.host ≠ [] := by
    intro he
    rw [he] at hl
    exact absurd hl (by decide)
  have hhost : ∀ u : URLImpl, setHost u a.hostPort.1 = none := by
    intro u
    rw [hf.host, if_neg hne, setHost, if_neg hne']
    split_ifs
    · rw [URLImpl.hostSet, URLImpl.mimeStrU16Set, if_neg (Nat.not_lt.mpr hl), Option.map_none]
    · rfl
  rw [parseInternet, skipSlashes_printed (by simp)]
  simp only [Option.bind_eq_bind, Option.bind_some, hs, hhost, Option.bind_none, Option.bind_fun_none]

/-- an accepted text has a scheme and an authority that were accepted -/
theorem urlParse_print_some {url url' : URLImpl} (hsch : SchemeShape url) {strict : Bool} (h : urlParse strict (urlPrint url) = some url') :
    ∃ r, parseInternet { URLImpl.null with scheme := url.scheme, schemeWksIdx := url.schemeWksIdx }
      (colon :: slash :: (slash :: (printUser url ++ (printHostPort url ++ slash :: printPath url)))) = some r := by
  rw [urlParse] at h
  split_ifs at h
  rw [urlPrint_eq hsch.ne, parseScheme_printed hsch, Option.bind_some] at h
  obtain ⟨r, hr, -⟩ := Option.bind_eq_some_iff.mp h
  exact ⟨r, hr⟩

/-- the printer adds punctuation only -/
theorem urlPrint_all {ok : UInt8 → Bool} {url : URLImpl} (hne : url.scheme ≠ [])
    (hmark : ∀ c ∈ [colon, slash, commat, lbrack, rbrack, semi, quest, sharp], ok c = true)
    (hok : ∀ c ∈ url.scheme ++ (url.user ++ url.password ++ url.host ++ url.port) ++ (url.path ++ url.params ++ url.query ++ url.fragment),
      ok c = true) :
    (urlPrint url).all ok = true := by
  have hall := List.all_eq_true.mpr hok
  simp only [List.all_append, Bool.and_eq_true] at hall
  obtain ⟨⟨hscheme, ⟨⟨huser, hpassword⟩, hhost⟩, hport⟩, ⟨⟨hpath, hparams⟩, hquery⟩, hfragment⟩ := hall
  simp only [List.forall_mem_cons, List.not_mem_nil, false_imp_iff, implies_true, and_true] at hmark
  obtain ⟨hcolon, hslash, hcommat, hlbrack, hrbrack, hsemi, hquest, hsharp⟩ := hmark
  have hpart : ∀ {mark : UInt8} {w : Bytes}, ok mark = true → w.all ok = true → (printPart mark w).all ok = true := by
    intro mark w hm hw
    unfold printPart
    split_ifs
    · rfl
    · rw [List.all_cons, hm, hw, Bool.true_and]
  have hu : (printUser url).all ok = true := by
    unfold printUser
    split_ifs <;> simp only [List.all_append, List.all_cons, List.all_nil, huser, hpassword, hcolon, hcommat, Bool.and_self]
  have hh : (printHostPort url).all ok = true := by
    unfold printHostPort printPort printHost
    split_ifs <;>
      simp only [List.all_append, List.all_cons, List.all_nil, hhost, hport, hcolon, hlbrack, hrbrack, Bool.and_self]
  rw [urlPrint_eq hne, printPath]
  simp only [List.all_append, List.all_cons, List.all_nil, hscheme, hcolon, hslash, hu, hh, hpath, hpart hsemi hparams,
    hpart hquest hquery, hpart hsharp hfragment, Bool.and_self]

theorem urlPrint_isUri {strict : Bool} {s : Bytes} {url : URLImpl} (h : urlParse strict s = some url) (hp : ParsedFrom s url) :
    strict = true → (urlPrint url).all isUri = true := by
  intro hstrict
  have hall : s.all isUri = true := by
    rw [urlParse, hstrict] at h
    by_contra hn
    rw [Bool.not_eq_true] at hn
    simp only [hn, Bool.not_false, Bool.and_self, if_true] at h
    exact absurd h (by simp)
  exact urlPrint_all hp.scheme.ne (by decide +kernel) fun c hc => List.all_eq_true.mp hall c (hp.sub c hc)

theorem printHost_length {host : Bytes} (h : bracketP host = true) : (printHost host).length = host.length + 2 := by
  rw [printHost, if_pos h]
  simp

theorem reparsed_same {url : URLImpl} (h : ¬(url.host = [] ∧ url.portNumber ≠ 0)) (hp : url.portNumber = URLImpl.portValue url.port) :
    SameUrl url (reparsed url) := by
  refine ⟨⟨rfl, rfl⟩, rfl, ?_, ?_, rfl, rfl, rfl, rfl⟩
  · unfold reparsed printHost
    by_cases he : url.host = []
    · exact Or.inl (by simp [he])
    · by_cases hb : bracketP url.host = true
      · exact Or.inr (by simp [he, hb])
      · exact Or.inl (by simp [he, hb])
  · simp only [reparsed]
    by_cases hd : portDropped url
    · rw [if_pos hd]
      rcases hd with he | he | he
      · by_contra hn
        exact h ⟨he, Ne.symm hn⟩
      · rw [hp, he]
        rfl
      · exact he.symm
    · rw [if_neg hd]

/-- A URL with a scheme is read back from its printed text, exactly when the text it was parsed from is not one of the unstable kinds. -/
theorem url_fixed_point (strict : Bool) (s : Bytes) (url : URLImpl) (h : urlParse strict s = some url) (hs : url.scheme ≠ []) :
    (∃ url', urlParse strict (urlPrint url) = some url' ∧ urlPrint url' = urlPrint url ∧ SameUrl url url') ↔ ¬Unstable s := by
  have hp := urlParse_some h hs
  have ha := hp.authority
  have huri := urlPrint_isUri h hp
  have hport := ha.portWithoutHost_iff
  have hadds := ha.addsBrackets_iff
  constructor
  · rintro ⟨url', hparse, -, hsame⟩ (hw | ⟨hb, hlong⟩)
    · -- the port is gone
      obtain ⟨he, hn⟩ := hport.mp hw
      have hnb : ¬(url.user.head? = some lbrack ∧ bracketP url.host = true) := by
        rw [he]
        exact fun hx => absurd hx.2 (by decide)
      have hl : (printHost url.host).length < URLImpl.UINT16_MAX := by
        rw [he]
        decide
      rw [urlParse_printed hp.scheme ha.shape hp.path ha.accepted hnb hl huri] at hparse
      obtain rfl := Option.some.inj hparse
      have hd : portDropped url := Or.inl he
      have hz : (if portDropped url then 0 else url.portNumber) = url.portNumber := hsame.portNumber
      rw [if_pos hd] at hz
      exact hn hz.symm
    · obtain ⟨r, hr⟩ := urlParse_print_some hp.scheme hparse
      have hbp := hadds.mp hb
      by_cases hu : url.user.head? = some lbrack
      · rw [parseInternet, skipSlashes_printed (by simp)] at hr
        simp only [Option.bind_eq_bind, Option.bind_some, scan_printed_none ha.shape hu hbp, Option.bind_none] at hr
        exact absurd hr (by simp)
      · have hlen : URLImpl.UINT16_MAX ≤ (printHost url.host).length := by
          rcases hlong with hul | hlong
          · exact absurd (ha.user.mpr hul) hu
          · rw [printHost_length hbp, ← ha.hostLength_eq hbp]
            exact hlong
        rw [parseInternet_long ha.shape hbp (fun hx => hu hx.1) hlen] at hr
        exact absurd hr (by simp)
  · intro hst
    obtain ⟨hnp, hnb⟩ := not_or.mp hst
    have hbr : ¬(url.user.head? = some lbrack ∧ bracketP url.host = true) :=
      fun hx => hnb ⟨hadds.mpr hx.2, Or.inl (ha.user.mp hx.1)⟩
    have hl : (printHost url.host).length < URLImpl.UINT16_MAX := by
      by_cases hb : bracketP url.host = true
      · rw [printHost_length hb, ← ha.hostLength_eq hb]
        exact Nat.lt_of_not_le fun hle => hnb ⟨hadds.mpr hb, Or.inr hle⟩
      · rw [printHost, if_neg hb]
        exact ha.accepted.host
    exact ⟨reparsed url, urlParse_printed hp.scheme ha.shape hp.path ha.accepted hbr hl huri, urlPrint_reparsed url,
      reparsed_same (fun hx => hnp (hport.mpr hx)) ha.shape.portNumber⟩

theorem url_fixed_point_one :
    (∃ url', urlParse true (urlPrint ((urlParse true (text "http://[::1]:8080/a;b?c")).getD URLImpl.null)) = some url' ∧
      urlPrint url' = urlPrint ((urlParse true (text "http://[::1]:8080/a;b?c")).getD URLImpl.null) ∧
      SameUrl ((urlParse true (text "http://[::1]:8080/a;b?c")).getD URLImpl.null) url') ↔ ¬Unstable (text "http://[::1]:8080/a;b?c") :=
  url_fixed_point true (text "http://[::1]:8080/a;b?c") _ (by decide +kernel) (by decide +kernel)

/-- a text that is accepted, and whose printed form is not -/
theorem bracket_twice :
    ∃ url, urlParse true (text "http://[u@1:2:3/") = some url ∧ url.scheme ≠ [] ∧ urlPrint url = text "http://[u@[1:2:3]/" ∧
      urlParse true (urlPrint url) = none :=
  ⟨{ URLImpl.null with scheme := text "http", schemeWksIdx := some (hdrtokenStrs.idxOf "http"), user := text "[u", host := text "1:2:3" },
    by decide +kernel, by decide, by decide +kernel, by decide +kernel⟩

end TrafficServer.Hdrs.UrlParse
