/-
The loop `while (dir_probe(key, vol, &dir, &last_collision))` when nothing else happens in between.

`probeAll` makes the calls one after the other and collects the entries they return. Each call starts at the slot of the entry returned last;
its slot has not moved, because the call deletes only entries behind it. So the loop returns the entries of the bucket with the tag of the key
that are valid, in the order of the chain, and ends (`probe_all`). Invalid entries go on the way, no others.
-/
import Mathlib
import TrafficServer.Cache.Probe

namespace TrafficServer.Cache

/-- the entries of the bucket `b`, its root first -/
def Seg.bucket (g : SegGeom) (s : Seg) (b : ℕ) : List Entry :=
  if (s.dir (dirBucket b)).isEmpty then [] else (s.chainFrom (g.slots + 1) (dirBucket b)).map s.ent

/-- At most `n` calls of `dir_probe`: the entries returned, the segment behind the calls, and whether the last one has returned 0. -/
def probeAll (g : SegGeom) (d : VolPos) (key : CacheKey) : ℕ → Option ℕ → Seg → List Entry × Seg × Bool
  | 0, _, s => ([], s, false)
  | n + 1, last, s =>
    match dirProbe g d key last s with
    | (s, none) => ([], s, true)
    | (s, some (_, x)) =>
      let r := probeAll g d key n (some x) s
      (s.ent x :: r.1, r.2)

/-- The segment `s'` is `s` without some invalid entries. -/
structure OnlyInvalidDeleted (g : SegGeom) (d : VolPos) (s s' : Seg) : Prop where
  inv : SegInv g s'
  sublist : ∀ b < g.buckets, (s'.bucket g b).Sublist (s.bucket g b)
  valid : ∀ b < g.buckets, (s'.bucket g b).filter (fun y => dirValid d y.1) = (s.bucket g b).filter fun y => dirValid d y.1

variable {g : SegGeom} {d : VolPos} {key : CacheKey} {s : Seg} {k : ℕ} {ch : ℕ → List ℕ} {v : ℕ → List Entry} {b : ℕ}

theorem Inv.bucket_eq (h : Inv g s k ch v) (hb : b < g.buckets) : s.bucket g b = v b := by
  have hlen := h.toRep.length_le hb
  rw [Seg.bucket]
  by_cases hv : v b = []
  · rw [if_pos ((h.root_empty hb).2 hv), hv]
  · have hcur := h.toRep.cursor hb hv
    rw [if_neg fun hr => hv ((h.root_empty hb).1 hr), hcur.chainFrom (Nat.lt_succ_of_le hlen)]
    exact hcur.ents.symm

theorem stays_of_valid {y : Entry} (h : dirValid d y.1 = true) : stays d key y = true := by
  rw [stays, h, Bool.or_true]

/-- What is kept contains what a stricter test selects. -/
theorem filter_of_stays {p : Entry → Bool} (hp : ∀ y, p y = true → stays d key y = true) {L L' : List Entry}
    (h : L'.filter (stays d key) = L.filter (stays d key)) : L'.filter p = L.filter p := by
  have hsplit : ∀ M : List Entry, M.filter p = (M.filter (stays d key)).filter p := by
    intro M
    rw [List.filter_filter]
    refine List.filter_congr fun y _ => ?_
    cases hy : p y with
    | false => rw [Bool.false_and]
    | true => rw [hp y hy, Bool.true_and]
  rw [hsplit, h, ← hsplit]

/-- the entries still to come: behind the slot of the last collision, or all of the bucket -/
def Ahead (s : Seg) (key : CacheKey) (bucket : List ℕ) (L T : List Entry) : Option ℕ → Prop
  | none => T = L
  | some c => Waits s key bucket c ∧ ∃ U, L = U ++ s.ent c :: T

/-- One call: the first hit of those ahead, and the rest is then ahead. -/
theorem Inv.probe_next (h : Inv g s k ch v) (hb : b = key.slice32 1 % g.buckets) {last : Option ℕ} {T : List Entry}
    (ht : Ahead s key (dirBucket b :: ch b) (v b) T last) : ∃ s' ch' L',
    Inv g s' k ch' (Function.update v b L') ∧ L'.Sublist (v b) ∧ L'.filter (stays d key) = (v b).filter (stays d key) ∧
    ((dirProbe g d key last s = (s', none) ∧ T.filter (hits d key) = []) ∨
      ∃ x T', dirProbe g d key last s = (s', some (s'.dir x, x)) ∧ T.filter (hits d key) = s'.ent x :: T'.filter (hits d key) ∧
        Ahead s' key (dirBucket b :: ch' b) L' T' (some x)) := by
  have hlt : b < g.buckets := by rw [hb]; exact bucketOf_lt g _
  obtain ⟨s', r, ch', L', T₁, heq, hrep, hsub, hfound, hT, hstay⟩ := h.probe_spec d key last hb
  have hi : Inv g s' k ch' (Function.update v b L') := h.of_sublist hrep fun c _ => sublist_update hsub c
  -- the call looks at the entries that are ahead
  obtain rfl : T₁ = T := by
    cases last with
    | none =>
      rcases hT with ⟨hT, -⟩ | ⟨c, U, hc, -⟩
      · exact hT.trans ht.symm
      · cases hc
    | some c =>
      obtain ⟨hw, U, hU⟩ := ht
      rcases hT with ⟨-, hno⟩ | ⟨c', U', hc, -, hU'⟩
      · exact absurd hw (hno c rfl (by rw [hU]; simp))
      · obtain rfl := Option.some.inj hc
        have hnd := ((h.good b hlt).nodup).of_map
        rw [hU] at hU' hnd
        have hnot := (List.nodup_cons.1 (List.nodup_middle.1 hnd)).1
        have hinj := (List.append_cons_inj_of_notMem (fun hm => hnot (List.mem_append_left T hm))
          fun hm => hnot (List.mem_append_right U hm)).1 hU'
        exact hinj.2.2.symm
  refine ⟨s', ch', L', hi, hsub, hstay, ?_⟩
  cases r with
  | none =>
    refine Or.inl ⟨heq, ?_⟩
    rw [List.filter_eq_nil_iff]
    intro y hy
    rw [hfound y hy]
    decide
  | some x =>
    obtain ⟨U, pre, post, hT', hU, hx, hcur⟩ := hfound
    have hents := hcur.ents
    rw [Function.update_self] at hents
    refine Or.inr ⟨x, post.map s'.ent, heq, ?_, ⟨?_, ?_⟩, pre.map s'.ent, hents⟩
    · have hnone : U.filter (hits d key) = [] := by
        rw [List.filter_eq_nil_iff]
        intro y hy
        rw [hU y hy]
        decide
      rw [hT', List.filter_append, hnone, List.nil_append, List.filter_cons_of_pos hx]
    · rw [hcur.pos]
      simp
    · rw [hits, Bool.and_eq_true] at hx
      exact hx.1

theorem Inv.onlyInvalidDeleted (h : Inv g s k ch v) {s' : Seg} {ch' : ℕ → List ℕ} {L' : List Entry}
    (h' : Inv g s' k ch' (Function.update v b L')) (hsub : L'.Sublist (v b))
    (hstay : L'.filter (stays d key) = (v b).filter (stays d key)) : OnlyInvalidDeleted g d s s' where
  inv := ⟨_, _, _, h'⟩
  sublist c hc := by
    rw [h'.bucket_eq hc, h.bucket_eq hc]
    exact sublist_update hsub c
  valid c hc := by
    rw [h'.bucket_eq hc, h.bucket_eq hc]
    by_cases hcb : c = b
    · rw [hcb, Function.update_self]
      exact filter_of_stays (fun y => stays_of_valid) hstay
    · rw [Function.update_of_ne hcb]

theorem OnlyInvalidDeleted.trans {s' s'' : Seg} (h : OnlyInvalidDeleted g d s s') (h' : OnlyInvalidDeleted g d s' s'') :
    OnlyInvalidDeleted g d s s'' where
  inv := h'.inv
  sublist b hb := (h'.sublist b hb).trans (h.sublist b hb)
  valid b hb := (h'.valid b hb).trans (h.valid b hb)

/-- the calls, from any state in the loop -/
theorem Inv.probeAll (n : ℕ) (h : Inv g s k ch v) (hb : b = key.slice32 1 % g.buckets) {last : Option ℕ} {T : List Entry}
    (ht : Ahead s key (dirBucket b :: ch b) (v b) T last) :
    (Cache.probeAll g d key n last s).1 = (T.filter (hits d key)).take n ∧
      ((Cache.probeAll g d key n last s).2.2 = true ↔ (T.filter (hits d key)).length < n) ∧
      OnlyInvalidDeleted g d s (Cache.probeAll g d key n last s).2.1 := by
  induction n generalizing s ch v last T with
  | zero => exact ⟨rfl, by simp [Cache.probeAll], ⟨⟨k, ch, v, h⟩, fun _ _ => List.Sublist.refl _, fun _ _ => rfl⟩⟩
  | succ n ih =>
    obtain ⟨s', ch', L', hi, hsub, hstay, hcase⟩ := h.probe_next (d := d) hb ht
    have honly := h.onlyInvalidDeleted hi hsub hstay
    rw [Cache.probeAll]
    rcases hcase with ⟨heq, hnil⟩ | ⟨x, T', heq, hcons, hahead⟩
    · rw [heq, hnil]
      exact ⟨rfl, by simp, honly⟩
    · have hself : Function.update v b L' b = L' := Function.update_self _ _ _
      rw [← hself] at hahead
      obtain ⟨hres, hend, honly'⟩ := ih hi hahead
      rw [heq, hcons]
      refine ⟨?_, ?_, honly.trans honly'⟩
      · rw [List.take_succ_cons, ← hres]
      · rw [List.length_cons, Nat.succ_lt_succ_iff]
        exact hend

/-- After `n` calls the loop has returned the first `n` of the valid entries of the bucket with the tag of the key, and it has ended exactly if
there are fewer. Only invalid entries have been deleted. -/
theorem probe_all (h : SegInv g s) (d : VolPos) (key : CacheKey) (n : ℕ) :
    (probeAll g d key n none s).1 = ((s.bucket g (key.slice32 1 % g.buckets)).filter (hits d key)).take n ∧
      ((probeAll g d key n none s).2.2 = true ↔ ((s.bucket g (key.slice32 1 % g.buckets)).filter (hits d key)).length < n) ∧
      OnlyInvalidDeleted g d s (probeAll g d key n none s).2.1 := by
  obtain ⟨k, ch, v, hi⟩ := h
  rw [hi.bucket_eq (bucketOf_lt g _)]
  exact hi.probeAll n rfl (show Ahead s key _ _ _ none from rfl)

def tinyInserts : List DirOp := [.insert tinyPos tinyKey (tinyDir 1) 1, .insert tinyPos tinyKey (tinyDir 2) 1]

/-- the segment of one bucket with two entries -/
def tinySeg : Seg := ((VolDir.init tinyGeom 1 fun _ => Seg.blank).run tinyInserts).seg 0

/-- Both are returned, and the third call returns 0. -/
theorem probe_all_two : (probeAll tinyGeom tinyPos tinyKey 3 none tinySeg).1.length = 2 ∧
    (probeAll tinyGeom tinyPos tinyKey 3 none tinySeg).2.2 = true := by
  have hinit : ∀ j, SegInv tinyGeom ((VolDir.init tinyGeom 1 fun _ => Seg.blank).seg j) := fun j => ⟨_, _, _, Inv.init tinyGeom Seg.blank⟩
  have hinv : SegInv tinyGeom tinySeg := (@VolDir.run_inv (VolDir.init tinyGeom 1 fun _ => Seg.blank) tinyInserts (by decide) hinit).2 0
  obtain ⟨hres, hend, -⟩ := probe_all hinv tinyPos tinyKey 3
  have hlen : ((tinySeg.bucket tinyGeom (tinyKey.slice32 1 % tinyGeom.buckets)).filter (hits tinyPos tinyKey)).length = 2 := by decide +kernel
  rw [hres, List.length_take, hlen]
  exact ⟨rfl, hend.2 (by rw [hlen]; decide)⟩

end TrafficServer.Cache
