import Gavel.Integrations.Token
import Gavel.Lib.Gaps
import Mathlib.Data.List.Chain

/-!
# One token for everybody

Only who holds the write lock asks for a token, and only after the token that is kept was found not to be
good. So tokens are fetched a lifetime apart, less the margin, by however many calls, and nobody is handed
a token that is about to expire.
-/

namespace Gavel.Integrations.TokenSource

open Gavel.Cluster (Millis)
open Gavel.Market (maxU64 plusMs)

variable {s : TokenSource} {c : BearerCaller} {i : Nat}

theorem isGood_iff {t : CachedToken} {now : Millis} (h : now + refreshMarginMs < 2 ^ 64) :
    t.isGood now = true ↔ now + refreshMarginMs < t.expiresAt := by
  rw [CachedToken.isGood, decide_eq_true_eq, Nat.mod_eq_of_lt h]

/-! ## What holds at every moment -/

/-- Where a call stands is right: it has a token that was good for it, or that it has fetched. -/
def Given (fetched : List FetchedToken) (i : Nat) (c : BearerCaller) : Prop :=
  ∀ v, c.call = .returned (some v) → ∃ f ∈ fetched, f.token.value = v ∧ (f.caller = i ∨ f.token.isGood c.now = true)

structure Sound (s : TokenSource) : Prop where
  /-- A request is on its way for the holder of the write lock alone. -/
  asks : ∀ (i : Nat) c, s.callers[i]? = some c → c.call = .fetch → s.writer = some i
  holds : ∀ i, s.writer = some i → ∃ c, s.callers[i]? = some c ∧ c.call = .fetch ∧ s.kept c.now = none
  cached : s.cached = s.fetched.getLast?.map FetchedToken.token
  /-- Who fetched a token has found the one before it not to be good. -/
  spaced : s.fetched.IsChain fun f g => f.token.isGood g.now = false
  given : ∀ (i : Nat) c, s.callers[i]? = some c → Given s.fetched i c

theorem start_sound : Sound start where
  asks _ _ h := nomatch h
  holds _ h := nomatch h
  cached := rfl
  spaced := .nil
  given _ _ h := nomatch h

theorem Given.mono {fetched later : List FetchedToken} (h : Given fetched i c) : Given (fetched ++ later) i c := by
  intro v hv
  obtain ⟨f, hf, hrest⟩ := h v hv
  exact ⟨f, List.mem_append_left _ hf, hrest⟩

theorem kept_some {now : Millis} {v : Text} (h : s.kept now = some v) :
    ∃ t, s.cached = some t ∧ t.isGood now = true ∧ t.value = v := by
  obtain ⟨t, ht, hv⟩ := Option.map_eq_some_iff.mp h
  obtain ⟨ht, hgood⟩ := Option.filter_eq_some_iff.mp ht
  exact ⟨t, ht, hgood, hv⟩

theorem kept_none {now : Millis} (h : s.kept now = none) {t : CachedToken} (ht : s.cached = some t) :
    t.isGood now = false := by
  have hfilter := Option.map_eq_none_iff.mp h
  rw [ht, Option.filter_some] at hfilter
  split at hfilter
  · cases hfilter
  · rename_i hgood
    exact eq_false_of_ne_true hgood

theorem getElem?_move (hi : s.callers[i]? = some c) (call : BearerCall) (j : Nat) :
    (s.move i c call).callers[j]? = if i = j then some { c with call } else s.callers[j]? := by
  have hlt : i < s.callers.length := (List.getElem?_eq_some_iff.mp hi).1
  simp only [TokenSource.move, List.getElem?_set, hlt, if_true]

/-- The standing of one call changes, and who holds the write lock with it. -/
theorem Sound.set (h : s.Sound) {call : BearerCall} {writer : Option Nat} (hi : s.callers[i]? = some c)
    (hasks : call = .fetch → writer = some i) (hothers : ∀ j, j ≠ i → (s.writer = some j ↔ writer = some j))
    (hholds : writer = some i → call = .fetch ∧ s.kept c.now = none)
    (hg : Given s.fetched i { c with call }) : { s.move i c call with writer }.Sound := by
  have hset := getElem?_move hi call
  refine ⟨fun j d hj hd => ?_, fun j hj => ?_, h.cached, h.spaced, fun j d hj => ?_⟩
  · rw [hset] at hj
    split at hj
    · rename_i heq
      cases hj
      exact heq ▸ hasks hd
    · rename_i hne
      exact (hothers j (Ne.symm hne)).mp (h.asks j d hj hd)
  · by_cases heq : i = j
    · subst heq
      obtain ⟨hcall, hkept⟩ := hholds hj
      exact ⟨_, (hset i).trans (if_pos rfl), hcall, hkept⟩
    · obtain ⟨d, hd, hcall, hkept⟩ := h.holds j ((hothers j (Ne.symm heq)).mpr hj)
      exact ⟨d, (hset j).trans ((if_neg heq).trans hd), hcall, hkept⟩
  · rw [hset] at hj
    split at hj
    · rename_i heq
      cases hj
      exact heq ▸ hg
    · exact h.given j d hj

/-- A call that has not asked moves on without the lock. -/
theorem Sound.move (h : s.Sound) {call : BearerCall} (hi : s.callers[i]? = some c) (hc : c.call ≠ .fetch)
    (hcall : call ≠ .fetch) (hg : Given s.fetched i { c with call }) : (s.move i c call).Sound := by
  refine h.set hi (fun heq => absurd heq hcall) (fun _ _ => Iff.rfl) (fun hw => ?_) hg
  obtain ⟨d, hd, hfetch, -⟩ := h.holds i hw
  rw [hi] at hd
  cases hd
  exact absurd hfetch hc

/-- A call that has asked gives the lock back. -/
theorem Sound.release (h : s.Sound) {call : BearerCall} (hi : s.callers[i]? = some c) (hc : c.call = .fetch)
    (hcall : call ≠ .fetch) (hg : Given s.fetched i { c with call }) :
    { s.move i c call with writer := none }.Sound := by
  have hw := h.asks i c hi hc
  refine h.set hi (fun heq => absurd heq hcall) (fun j hj => ?_) (fun hn => nomatch hn) hg
  rw [hw]
  exact ⟨fun heq => absurd (Option.some.inj heq).symm hj, fun hn => nomatch hn⟩

theorem given_of_call {fetched : List FetchedToken} {call : BearerCall} (h : ∀ v, call ≠ .returned (some v)) :
    Given fetched i { c with call } := fun v hv => absurd hv (h v)

/-- A call that takes the token that is kept. -/
theorem Sound.given_kept (h : s.Sound) {v : Text} (hv : s.kept c.now = some v) :
    Given s.fetched i { c with call := .returned (some v) } := by
  intro w hw
  cases hw
  obtain ⟨t, ht, hgood, hvalue⟩ := kept_some hv
  rw [h.cached] at ht
  obtain ⟨f, hf, rfl⟩ := Option.map_eq_some_iff.mp ht
  exact ⟨f, List.mem_of_getLast? hf, hvalue, .inr hgood⟩

theorem Sound.settle (h : s.Sound) (hi : s.callers[i]? = some c) (hc : c.call = .fetch)
    (answer : Option (Text × Nat)) : (s.settle i c answer).Sound := by
  cases answer with
  | none => exact h.release hi hc (fun hn => nomatch hn) (given_of_call fun v hn => nomatch hn)
  | some answer =>
      obtain ⟨value, expiresIn⟩ := answer
      have hw := h.asks i c hi hc
      have hset (j : Nat) : (s.settle i c (some (value, expiresIn))).callers[j]? = _ :=
        getElem?_move hi (.returned (some value)) j
      refine ⟨fun j d hj hd => ?_, fun j hj => ?_, ?_, ?_, fun j d hj => ?_⟩
      · rw [hset] at hj
        split at hj
        · cases hj
          cases hd
        · rename_i hne
          exact absurd (Option.some.inj (hw.symm.trans (h.asks j d hj hd))) hne
      · cases hj
      · simp only [TokenSource.settle, List.getLast?_concat, Option.map_some]
      · refine List.IsChain.append h.spaced (.singleton _) fun f hf g hg => ?_
        cases hg
        obtain ⟨d, hd, -, hkept⟩ := h.holds i hw
        rw [hi] at hd
        cases hd
        refine kept_none hkept ?_
        rw [h.cached, hf]
        rfl
      · rw [hset] at hj
        split at hj
        · rename_i heq
          cases hj
          intro v hv
          cases hv
          exact ⟨_, List.mem_append_right _ (List.mem_singleton_self _), rfl, .inl heq⟩
        · exact (h.given j d hj).mono

theorem Sound.proceed (h : s.Sound) (hi : s.callers[i]? = some c) (answer : Option (Text × Nat)) :
    (s.proceed i c answer).Sound := by
  unfold TokenSource.proceed
  split
  · rename_i hc
    have hc : c.call ≠ .fetch := by simp [hc]
    split
    · exact h
    · split
      · rename_i value hv
        exact h.move hi hc (fun hn => nomatch hn) (h.given_kept hv)
      · exact h.move hi hc (fun hn => nomatch hn) (given_of_call fun v hn => nomatch hn)
  · rename_i hc
    have hc : c.call ≠ .fetch := by simp [hc]
    split
    · exact h
    · rename_i hfree
      split
      · rename_i value hv
        exact h.move hi hc (fun hn => nomatch hn) (h.given_kept hv)
      · rename_i hv
        have hnone : s.writer = none := by simpa using hfree
        refine h.set hi (fun _ => rfl) (fun j hj => ?_) (fun _ => ⟨rfl, hv⟩) (given_of_call fun v hn => nomatch hn)
        rw [hnone]
        exact ⟨(fun hn => nomatch hn), fun heq => absurd (Option.some.inj heq).symm hj⟩
  · rename_i hc
    exact h.settle hi hc answer
  · exact h
  · exact h

theorem Sound.drop (h : s.Sound) (hi : s.callers[i]? = some c) : (s.drop i c).Sound := by
  have hgiven : Given s.fetched i { c with call := .dropped } := given_of_call fun v hn => nomatch hn
  unfold TokenSource.drop
  split
  · rename_i hc
    exact h.move hi (by simp [hc]) (fun hn => nomatch hn) hgiven
  · rename_i hc
    exact h.move hi (by simp [hc]) (fun hn => nomatch hn) hgiven
  · rename_i hc
    exact h.release hi hc (fun hn => nomatch hn) hgiven
  · exact h
  · exact h

theorem getElem?_concat_some {l : List BearerCaller} {d : BearerCaller} (hd : (l ++ [c])[i]? = some d) :
    l[i]? = some d ∨ d = c := by
  rcases Nat.lt_or_ge i l.length with hlt | hge
  · rw [List.getElem?_append_left hlt] at hd
    exact .inl hd
  · rw [List.getElem?_append_right hge] at hd
    exact .inr (List.mem_singleton.mp (List.mem_of_getElem? hd))

theorem Sound.step (h : s.Sound) (t : BearerStep) : (s.step t).Sound := by
  cases t with
  | call now =>
      refine ⟨fun j d hj hd => ?_, fun j hj => ?_, h.cached, h.spaced, fun j d hj => ?_⟩
      · rcases getElem?_concat_some hj with hj | rfl
        · exact h.asks j d hj hd
        · cases hd
      · obtain ⟨d, hd, hrest⟩ := h.holds j hj
        exact ⟨d, (List.getElem?_append_left (List.getElem?_eq_some_iff.mp hd).1).trans hd, hrest⟩
      · rcases getElem?_concat_some hj with hj | rfl
        · exact h.given j d hj
        · exact fun v hv => nomatch hv
  | proceed i answer =>
      simp only [TokenSource.step]
      split
      · rename_i hi
        exact h.proceed hi answer
      · exact h
  | drop i =>
      simp only [TokenSource.step]
      split
      · rename_i hi
        exact h.drop hi
      · exact h

/-- However the calls come: at most one of them has a request on its way, the others need only wait for it,
and whoever gets a token has fetched it or gets one that does not expire within the margin after it called,
as long as the end of the margin can be counted. -/
theorem bearer_good (steps : List BearerStep) :
    let s := after steps
    (∀ (i j : Nat) c d, s.callers[i]? = some c → s.callers[j]? = some d → c.call = .fetch → d.call = .fetch →
      i = j) ∧
    (∀ i, s.writer = some i → ∃ c, s.callers[i]? = some c ∧ c.call = .fetch) ∧
    ∀ (i : Nat) c v, s.callers[i]? = some c → c.call = .returned (some v) → c.now + refreshMarginMs < 2 ^ 64 →
      ∃ f ∈ s.fetched, f.token.value = v ∧ (f.caller = i ∨ c.now + refreshMarginMs < f.token.expiresAt) := by
  intro s
  have h : s.Sound := Run.invariant_final (fun _ t h => h.step t) steps start_sound
  refine ⟨fun i j c d hi hj hc hd => ?_, fun i hi => ?_, fun i c v hi hv hnow => ?_⟩
  · exact Option.some.inj ((h.asks i c hi hc).symm.trans (h.asks j d hj hd))
  · obtain ⟨c, hc, hcall, -⟩ := h.holds i hi
    exact ⟨c, hc, hcall⟩
  · obtain ⟨f, hf, hvalue, hcase⟩ := h.given i c hi v hv
    exact ⟨f, hf, hvalue, hcase.imp_right (isGood_iff hnow).mp⟩

/-! ## How often a token is fetched -/

/-- A step of a run in which calls come within some time and tokens last at least so long. -/
def Lasting (since until' lifetime : Nat) : BearerStep → Prop
  | .call now => since ≤ now ∧ now ≤ until'
  | .proceed _ (some (_, expiresIn)) => lifetime ≤ expiresIn * 1000
  | .proceed _ none | .drop _ => True

/-- The calls came within some time, and tokens last. -/
structure Timed (since until' lifetime : Nat) (s : TokenSource) : Prop where
  callers : ∀ c ∈ s.callers, since ≤ c.now ∧ c.now ≤ until'
  fetched : ∀ f ∈ s.fetched, (since ≤ f.now ∧ f.now ≤ until') ∧ min (f.now + lifetime) maxU64 ≤ f.token.expiresAt

theorem Timed.move {since until' lifetime : Nat} (h : Timed since until' lifetime s) (hi : s.callers[i]? = some c)
    (call : BearerCall) (writer : Option Nat) : Timed since until' lifetime { s.move i c call with writer } := by
  refine ⟨fun d hd => ?_, h.fetched⟩
  rcases List.mem_or_eq_of_mem_set hd with hd | rfl
  · exact h.callers d hd
  · exact h.callers c (List.mem_of_getElem? hi)

theorem lasts_of_le {lifetime life : Nat} (h : lifetime ≤ life) (now : Nat) :
    min (now + lifetime) maxU64 ≤ plusMs now (min life maxU64) := by
  rw [plusMs]
  omega

theorem Timed.step {since until' lifetime : Nat} (h : Timed since until' lifetime s) (t : BearerStep)
    (ht : Lasting since until' lifetime t) : Timed since until' lifetime (s.step t) := by
  cases t with
  | call now =>
      refine ⟨fun d hd => ?_, h.fetched⟩
      rcases List.mem_append.mp hd with hd | hd
      · exact h.callers d hd
      · rw [List.mem_singleton.mp hd]
        exact ht
  | proceed i answer =>
      simp only [TokenSource.step]
      split
      · rename_i c hi
        unfold TokenSource.proceed
        split
        · split
          · exact h
          · split
            · exact h.move hi _ _
            · exact h.move hi _ _
        · split
          · exact h
          · split
            · exact h.move hi _ _
            · exact h.move hi _ _
        · cases answer with
          | none => exact h.move hi _ _
          | some answer =>
              obtain ⟨value, expiresIn⟩ := answer
              have ht : lifetime ≤ expiresIn * 1000 := ht
              refine ⟨(h.move hi (.returned (some value)) none).callers, fun f hf => ?_⟩
              rcases List.mem_append.mp hf with hf | hf
              · exact h.fetched f hf
              · rw [List.mem_singleton.mp hf]
                refine ⟨h.callers c (List.mem_of_getElem? hi), ?_⟩
                exact lasts_of_le ht c.now
        · exact h
        · exact h
      · exact h
  | drop i =>
      simp only [TokenSource.step]
      split
      · rename_i c hi
        unfold TokenSource.drop
        split
        · exact h.move hi _ _
        · exact h.move hi _ _
        · exact h.move hi _ _
        · exact h
        · exact h
      · exact h

/-- The token before was within the margin of its end, which was a lifetime after it was asked for. -/
theorem apart_of_not_good {now next lifetime expiresAt until' : Nat} (hlasts : min (now + lifetime) maxU64 ≤ expiresAt)
    (hgood : expiresAt ≤ next + refreshMarginMs) (hnext : next ≤ until') (hrange : until' + refreshMarginMs < maxU64)
    (hlong : refreshMarginMs ≤ lifetime) : now + (lifetime - refreshMarginMs) ≤ next := by
  omega

/-- Tokens are fetched a lifetime apart, less the margin, however many calls there are. -/
theorem tokens_apart (steps : List BearerStep) (since until' lifetime : Nat) (hrange : until' + refreshMarginMs < maxU64)
    (hsteps : ∀ t ∈ steps, Lasting since until' lifetime t) :
    (after steps).fetched.length * (lifetime - refreshMarginMs) ≤ until' - since + (lifetime - refreshMarginMs) := by
  have h : (after steps).Sound := Run.invariant_final (fun _ t h => h.step t) steps start_sound
  have htimed : Timed since until' lifetime (after steps) :=
    Run.invariant (fun _ t h ht => h.step t ht) ⟨by simp [start], by simp [start]⟩ (Run.allSteps_of_forall hsteps) _
      (Run.final_mem_visited _ _)
  rcases Nat.le_total lifetime refreshMarginMs with hshort | hlong
  · simp [Nat.sub_eq_zero_of_le hshort]
  have hchain : ((after steps).fetched.map FetchedToken.now).IsChain
      fun a b => a + (lifetime - refreshMarginMs) ≤ b := by
    refine (List.isChain_map _).mpr (h.spaced.imp_of_mem_imp fun f g hf hg hgood => ?_)
    obtain ⟨-, hlasts⟩ := htimed.fetched f hf
    obtain ⟨⟨-, hg⟩, -⟩ := htimed.fetched g hg
    have hnow : g.now + refreshMarginMs < 2 ^ 64 :=
      Nat.lt_of_le_of_lt (Nat.add_le_add_right hg _) (Nat.lt_trans hrange (by decide))
    have hexpires : f.token.expiresAt ≤ g.now + refreshMarginMs := by
      rw [← Bool.not_eq_true, isGood_iff hnow] at hgood
      exact Nat.not_lt.mp hgood
    exact apart_of_not_good hlasts hexpires hg hrange hlong
  cases hl : (after steps).fetched with
  | nil => simp
  | cons f l =>
      obtain ⟨g, hg⟩ : ∃ g, (f :: l).getLast? = some g :=
        ⟨_, List.getLast?_eq_some_getLast (List.cons_ne_nil f l)⟩
      have hlast : ((f :: l).map FetchedToken.now).getLast? = some g.now := by
        rw [List.getLast?_map, hg]
        rfl
      rw [hl] at hchain
      have hreach := Gaps.first_add_le_of_gaps hchain rfl hlast
      have hf := (htimed.fetched f (hl ▸ List.mem_cons_self)).1.1
      have hg := (htimed.fetched g (hl ▸ List.mem_of_getLast? hg)).1.2
      rw [List.length_map, List.length_cons, Nat.add_sub_cancel, Nat.mul_comm] at hreach
      have hspan : since + l.length * (lifetime - refreshMarginMs) ≤ until' :=
        (Nat.add_le_add_right hf _).trans (hreach.trans hg)
      rw [List.length_cons, Nat.succ_mul]
      exact Nat.add_le_add_right (Nat.le_sub_of_add_le (Nat.add_comm since _ ▸ hspan)) _

/-- A second call waits while the first one asks, and gets the same token. -/
def sharing : List BearerStep :=
  [.call 0, .proceed 0 none, .proceed 0 none, .call 10, .proceed 1 none, .proceed 0 (some (['t'], 86400)),
    .proceed 1 none]

theorem tokens_apart_sharing :
    (after sharing).fetched.length * (86400000 - refreshMarginMs) ≤ 10 - 0 + (86400000 - refreshMarginMs) :=
  tokens_apart sharing 0 10 86400000 (by decide) (by simp [sharing, Lasting])

end Gavel.Integrations.TokenSource
