import ExprFront.Proofs.Inert
import ExprFront.Proofs.Reports

/-!
# Error limits

A session with a limit takes the turns that it takes without one, through the failure that reaches
the limit. No turn looks at the limit in any other way, so nothing else of a run depends on it.
-/

namespace ExprFront
set_option autoImplicit false

/-! ## Reaching a limit -/

/-- That many diagnostics reach the limit. -/
def LimitReached (limit : Option Int) (n : Nat) : Prop := ∃ m, limit = some m ∧ m ≠ 0 ∧ m ≤ n

theorem limitReached_some_iff {m : Int} {n : Nat} : LimitReached (some m) n ↔ m ≠ 0 ∧ m ≤ n := by
  simp [LimitReached]

theorem Collector.isFull_iff (c : Collector) : c.isFull = true ↔ LimitReached c.limit c.count := by
  unfold isFull LimitReached
  cases c.limit with
  | none => simp
  | some m => simp

/-! ## Failures -/

/-- Of the parts of `us` that start with it and satisfy `p`, this one is the shortest. -/
structure ShortestPrefix {α : Type} (p : List α → Prop) (part us : List α) : Prop where
  isPart : part <+: us
  holds : p part
  least : ∀ vs, vs <+: us → p vs → part <+: vs

def failuresOf (us : List SourceUnit) : Nat := us.countP fun u => u.kind = .failure

theorem failuresOf_append (us vs : List SourceUnit) :
    failuresOf (us ++ vs) = failuresOf us + failuresOf vs := List.countP_append

theorem failuresOf_toList_le (u : Option SourceUnit) : failuresOf u.toList ≤ 1 := by
  cases u with
  | none => exact Nat.zero_le 1
  | some u => exact List.countP_le_length

namespace Session

/-- The turns through the failure of the given number. -/
def throughFailure (k : Nat) : List Beat → List Beat
  | [] => []
  | b :: bs => if k = 0 then [] else b :: throughFailure (k - failuresOf b.turn.unit?.toList) bs

theorem throughFailure_zero (bs : List Beat) : throughFailure 0 bs = [] := by
  cases bs <;> rfl

theorem throughFailure_cons {k : Nat} (hk : 0 < k) (b : Beat) (bs : List Beat) :
    throughFailure k (b :: bs) = b :: throughFailure (k - failuresOf b.turn.unit?.toList) bs := by
  rw [throughFailure, if_neg (by omega)]

theorem throughFailure_isPrefix (k : Nat) (bs : List Beat) : throughFailure k bs <+: bs := by
  induction bs generalizing k with
  | nil => exact List.nil_prefix
  | cons b bs ih =>
    rcases Nat.eq_zero_or_pos k with rfl | hk
    · exact List.nil_prefix
    · rw [throughFailure_cons hk]
      exact List.cons_prefix_cons.mpr ⟨rfl, ih _⟩

theorem throughFailure_eq_self {k : Nat} {bs : List Beat} (h : failuresOf (unitsOf bs) < k) :
    throughFailure k bs = bs := by
  induction bs generalizing k with
  | nil => rfl
  | cons b bs ih =>
    rw [unitsOf_cons, failuresOf_append] at h
    rw [throughFailure_cons (by omega), ih (by omega)]

theorem failuresOf_throughFailure {k : Nat} {bs : List Beat} (h : k ≤ failuresOf (unitsOf bs)) :
    failuresOf (unitsOf (throughFailure k bs)) = k := by
  induction bs generalizing k with
  | nil => exact (Nat.le_zero.mp h).symm
  | cons b bs ih =>
    rcases Nat.eq_zero_or_pos k with rfl | hk
    · rfl
    · have hone := failuresOf_toList_le b.turn.unit?
      rw [unitsOf_cons, failuresOf_append] at h
      rw [throughFailure_cons hk, unitsOf_cons, failuresOf_append, ih (by omega)]
      omega

theorem throughFailure_least {k : Nat} {bs : List Beat} {us : List SourceUnit}
    (hus : us <+: unitsOf bs) (hk : k ≤ failuresOf us) : unitsOf (throughFailure k bs) <+: us := by
  induction bs generalizing k us with
  | nil => exact List.nil_prefix
  | cons b bs ih =>
    rcases Nat.eq_zero_or_pos k with rfl | hpos
    · exact List.nil_prefix
    · rw [unitsOf_cons] at hus
      rw [throughFailure_cons hpos, unitsOf_cons]
      cases hunit : b.turn.unit? with
      | none =>
        rw [hunit] at hus
        exact ih hus hk
      | some u =>
        rw [hunit] at hus
        cases us with
        | nil => exact absurd hpos (Nat.not_lt.mpr hk)
        | cons v us =>
          obtain ⟨rfl, htail⟩ := List.cons_prefix_cons.mp hus
          have hsplit : failuresOf (v :: us) = failuresOf [v] + failuresOf us :=
            failuresOf_append [v] us
          refine List.cons_prefix_cons.mpr ⟨rfl, ih htail ?_⟩
          show k - failuresOf [v] ≤ _
          omega

/-- The turns through a failure make the shortest part of the units with as many failures. -/
theorem shortestPrefix_throughFailure {k : Nat} {bs : List Beat}
    (h : k ≤ failuresOf (unitsOf bs)) :
    ShortestPrefix (fun us => k ≤ failuresOf us) (unitsOf (throughFailure k bs)) (unitsOf bs) where
  isPart := (throughFailure_isPrefix k bs).filterMap _
  holds := Nat.le_of_eq (failuresOf_throughFailure h).symm
  least := fun _ hus hk => throughFailure_least hus hk

end Session

/-! ## Setting a limit -/

variable (limit : Option Int)

namespace Parser

def withLimit (p : Parser) : Parser := { p with errors := { p.errors with limit := limit } }

theorem inert_withLimit : Inert (withLimit limit) :=
  ⟨fun _ => rfl, fun _ => rfl, fun _ => rfl, fun _ => rfl, fun _ _ => rfl, fun _ _ _ => rfl⟩

end Parser

namespace Session

def withLimit (s : Session) : Session := { s with parser := s.parser.withLimit limit }

theorem dispatch_withLimit (s : Session) :
    (s.withLimit limit).dispatch = Prod.map id (withLimit limit) s.dispatch := by
  have hinert := Parser.inert_withLimit limit
  exact dispatch_mapParser hinert fun _ => hinert.unit s.parser.prime_at rfl rfl

theorem Ready.turn_withLimit {s s' : Session} {t : Turn} (h : (s.withLimit limit).Ready)
    (hs : s.Ready) (ht : s.turn = (t, s')) :
    (s.withLimit limit).turn = (t, s'.withLimit limit) := by
  rw [h.turn_eq_dispatch, dispatch_withLimit, ← hs.turn_eq_dispatch, ht]
  rfl

/-! ## Cut sessions -/

variable {limit}

/-- With the limit the session goes through its failure of the given number and is aborted there. If
there are not as many, it goes on to its end. -/
structure CutAt (limit : Option Int) (k : Nat) (s : Session) : Prop where
  units : unitsOf (s.withLimit limit).beats = unitsOf (throughFailure k s.beats)
  aborted : k ≤ failuresOf (unitsOf s.beats) →
    (s.withLimit limit).final = ((s.afterBeats (throughFailure k s.beats)).withLimit limit).stop
  completed : failuresOf (unitsOf s.beats) < k → (s.withLimit limit).final = s.final.withLimit limit

theorem CutAt.cons {k : Nat} (hk : 0 < k) {s s' : Session} {t : Turn} (ht : s.turn = (t, s'))
    (ht' : (s.withLimit limit).turn = (t, s'.withLimit limit)) (hc : continues t = true)
    (h : s'.CutAt limit (k - failuresOf t.unit?.toList)) : s.CutAt limit k := by
  have hone := failuresOf_toList_le t.unit?
  have hunits := unitsOf_of_turn ht hc
  constructor
  · rw [unitsOf_of_turn ht' hc, h.units, beats_of_turn ht hc, throughFailure_cons hk, unitsOf_cons]
  · intro hle
    rw [hunits, failuresOf_append] at hle
    rw [final_of_turn ht' hc, h.aborted (by omega), beats_of_turn ht hc, throughFailure_cons hk,
      afterBeats_cons]
  · intro hlt
    rw [hunits, failuresOf_append] at hlt
    rw [final_of_turn ht' hc, final_of_turn ht hc, h.completed (by omega)]

/-- Before the first check of a limit that is reached, nothing is left to be done. -/
theorem cutAt_zero {s : Session} (hs : s.stage = .afterFailure)
    (hf : (s.withLimit limit).parser.errors.isFull = true) : s.CutAt limit 0 := by
  have ht := turn_of_isFull (s := s.withLimit limit) hs hf
  constructor
  · rw [unitsOf_of_last_turn ht rfl, throughFailure_zero]
    rfl
  · intro _
    rw [final_of_last_turn ht rfl, throughFailure_zero]
    rfl
  · intro hlt
    exact absurd hlt (Nat.not_lt_zero _)

theorem cutAt_of_isEnd {s : Session} {k : Nat} (hk : 0 < k) (hs : s.Ready)
    (hready : (s.withLimit limit).Ready) (he : s.lookahead.token.isEnd = true) :
    s.CutAt limit k := by
  have ht := hs.turn_of_isEnd he
  have ht' := hready.turn_withLimit limit hs ht
  have hunits := unitsOf_of_last_turn ht rfl
  constructor
  · rw [unitsOf_of_last_turn ht' rfl, throughFailure_eq_self (by rwa [hunits]), hunits]
  · intro hle
    rw [hunits] at hle
    exact absurd hk (Nat.not_lt.mpr hle)
  · intro _
    rw [final_of_last_turn ht' rfl, final_of_last_turn ht rfl]

theorem Steady.cutAt {s : Session} (h : s.Steady) {k : Nat} (hk : 0 < k)
    (hready : (s.withLimit limit).Ready)
    (hbefore : ∀ j, 0 < j → j < k → ¬ LimitReached limit (s.parser.errors.count + j))
    (hat : k ≤ failuresOf (unitsOf s.beats) → LimitReached limit (s.parser.errors.count + k)) :
    s.CutAt limit k := by
  induction s, h using Steady.induction generalizing k with
  | endOfInput s h he ht => exact cutAt_of_isEnd hk h.ready hready he
  | separator s h hs ht h' ih =>
    have ht' := hready.turn_withLimit limit h.ready ht
    rw [unitsOf_of_turn ht rfl] at hat
    rw [← errors_moveTo s s.lookahead.advance] at hbefore hat
    exact .cons hk ht ht' rfl (ih hk (.inl rfl) hbefore hat)
  | derived s h ts m u hr hu ht h' ih =>
    have ht' := hready.turn_withLimit limit h.ready ht
    have hnone : failuresOf (Turn.unit u).unit?.toList = 0 := by
      simp [failuresOf, Turn.unit?, hu.ne_failure]
    rw [unitsOf_of_turn ht rfl, failuresOf_append, hnone, Nat.zero_add] at hat
    rw [← errors_moveTo s m] at hbefore hat
    apply CutAt.cons hk ht ht' rfl
    rw [hnone]
    exact ih hk (.inl rfl) hbefore hat
  | failed s h ts m cause he hr ht h' ih =>
    have ht' := hready.turn_withLimit limit h.ready ht
    have hcount : (s.skip m cause).parser.errors.count = s.parser.errors.count + 1 := by
      rw [errors_skip, Collector.count_add]
    have hfull : ((s.skip m cause).withLimit limit).parser.errors.isFull = true ↔
        LimitReached limit (s.parser.errors.count + 1) := by
      rw [← hcount]
      exact Collector.isFull_iff _
    have hone :
        failuresOf (Turn.unit (.failure (some (m.diagnostic cause)))).unit?.toList = 1 := rfl
    rw [unitsOf_of_turn ht rfl, failuresOf_append, hone] at hat
    apply CutAt.cons hk ht ht' rfl
    rw [hone]
    -- This failure is either the last one before the cut or not.
    obtain rfl | hlt : k = 1 ∨ 1 < k := by omega
    · exact cutAt_zero rfl (hfull.mpr (hat (by omega)))
    · have hnot := hbefore 1 Nat.one_pos hlt
      apply ih (by omega)
      · refine .inr ⟨rfl, ?_⟩
        rw [Bool.eq_false_iff]
        exact fun hf => hnot (hfull.mp hf)
      · intro j hj hjk
        rw [hcount, Nat.add_assoc, Nat.add_comm 1 j]
        exact hbefore (j + 1) (by omega) (by omega)
      · intro hle
        rw [hcount, Nat.add_assoc, Nat.add_sub_cancel' hk]
        exact hat (by omega)

end Session

/-! ## Runs -/

theorem Session.Live.length_diagnostics {s : Session} (h : s.Live) :
    ((unitsOf s.beats).filterMap SourceUnit.diagnostic?).length = failuresOf (unitsOf s.beats) := by
  rw [List.length_filterMap_eq_countP, failuresOf]
  apply List.countP_congr
  intro u hu
  obtain ⟨ts, hu⟩ | ⟨d, rfl⟩ := h.unit_derived_or_failed u hu
  · have hnone : u.diagnostic? = none := by cases hu <;> rfl
    simp [hnone, hu.ne_failure]
  · simp [SourceUnit.diagnostic?, SourceUnit.kind]

namespace Result

theorem ofSession_completed {limit : Option Int} {s : Session} {k : Nat} (h : s.CutAt limit k)
    (hlt : failuresOf (unitsOf s.beats) < k) : ofSession (s.withLimit limit) = ofSession s := by
  have hunits := h.units
  rw [Session.throughFailure_eq_self hlt] at hunits
  show ofBeats _ _ = ofBeats _ _
  simp only [ofBeats, hunits]
  rw [← Session.final, h.completed hlt]
  rfl

theorem ofSession_aborted {limit : Option Int} {s : Session} {k : Nat} (h : s.CutAt limit k)
    (hle : k ≤ failuresOf (unitsOf s.beats)) :
    ofSession (s.withLimit limit) =
      { ofBeats s (Session.throughFailure k s.beats) with aborted := true } := by
  show ofBeats _ _ = _
  simp only [ofBeats, h.units]
  rw [← Session.final, h.aborted hle]
  rfl

/-- The result depends on the limit only through the failure at which it cuts. -/
theorem ofSession_eq_of_cutAt {limit limit' : Option Int} {s : Session} {k : Nat}
    (h : s.CutAt limit k) (h' : s.CutAt limit' k) :
    ofSession (s.withLimit limit) = ofSession (s.withLimit limit') := by
  by_cases hle : k ≤ failuresOf (unitsOf s.beats)
  · rw [ofSession_aborted h hle, ofSession_aborted h' hle]
  · have hlt : failuresOf (unitsOf s.beats) < k := Nat.lt_of_not_le hle
    rw [ofSession_completed h hlt, ofSession_completed h' hlt]

end Result

namespace Options

theorem cutAt_session (o : Options) (source : List Char) (name : Option String) {m : Int}
    (hm : m ≠ 0) {k : Nat} (hk : 0 < k) (hiff : ∀ j : Nat, 0 < j → (m ≤ j ↔ k ≤ j)) :
    ({ o with limit := none }.session source name).CutAt (some m) k := by
  have hsteady := steady_session (o := { o with limit := none }) rfl source name
  have hzero : ∀ j, ({ o with limit := none }.session source name).parser.errors.count + j = j :=
    fun j => Nat.zero_add j
  apply hsteady.cutAt hk (.inl rfl)
  · intro j hj hjk hreaches
    rw [hzero, limitReached_some_iff, hiff j hj] at hreaches
    omega
  · intro _
    rw [hzero, limitReached_some_iff, hiff k hk]
    exact ⟨hm, Nat.le_refl k⟩

/-- A limit only cuts off what follows the failure that reaches it. A limit of zero is none, and a
negative one is as good as a limit of one. -/
theorem run_limit (table : OperatorTable) (anonymous filename : String) (source : List Char)
    (name : Option String) :
    let run (limit : Option Int) := Options.run ⟨table, anonymous, filename, limit⟩ source name
    let all := run none
    all.aborted = false ∧
    (∀ n : Nat, 0 < n →
      let r := run (some n)
      (failuresOf all.units < n → r = all) ∧
      (n ≤ failuresOf all.units →
        ShortestPrefix (fun us => n ≤ failuresOf us) r.units all.units ∧
        failuresOf r.units = n ∧
        r.diagnostics = r.units.filterMap SourceUnit.diagnostic? ∧ r.diagnostics.length = n ∧
        r.aborted = true)) ∧
    run (some 0) = all ∧ ∀ n : Int, n < 0 → run (some n) = run (some 1) := by
  intro run all
  let o : Options := ⟨table, anonymous, filename, none⟩
  let s := o.session source name
  have hsteady : s.Steady := steady_session rfl source name
  refine ⟨hsteady.final_aborted, ?_, ?_, ?_⟩
  · intro n hn r
    have hcut : s.CutAt (some n) n := o.cutAt_session source name (by omega) hn (by omega)
    refine ⟨Result.ofSession_completed hcut, ?_⟩
    intro hle
    have hr : r = { Result.ofBeats s (Session.throughFailure n s.beats) with aborted := true } :=
      Result.ofSession_aborted hcut hle
    have hunits : r.units = unitsOf (Session.throughFailure n s.beats) := by rw [hr]; rfl
    have hfailures : failuresOf r.units = n := by
      rw [hunits]
      exact Session.failuresOf_throughFailure hle
    have hlive := { o with limit := some n }.live_session source name
    have hdiagnostics : r.diagnostics = r.units.filterMap SourceUnit.diagnostic? :=
      hlive.final_diagnostics
    refine ⟨?_, hfailures, hdiagnostics, ?_, ?_⟩
    · rw [hunits]
      exact Session.shortestPrefix_throughFailure hle
    · rw [hdiagnostics, ← hfailures]
      exact hlive.length_diagnostics
    · rw [hr]
  · have hnever : ∀ j : Nat, ¬ LimitReached (some 0) j := by simp [limitReached_some_iff]
    have hcut : s.CutAt (some 0) (failuresOf all.units + 1) := by
      apply hsteady.cutAt (Nat.succ_pos _) (.inl rfl)
      · exact fun j _ _ => hnever _
      · exact fun hle => absurd hle (Nat.not_succ_le_self _)
    exact Result.ofSession_completed hcut (Nat.lt_succ_self _)
  · intro n hn
    have hcut : s.CutAt (some n) 1 := o.cutAt_session source name (by omega) Nat.one_pos (by omega)
    have hcut' : s.CutAt (some 1) 1 := o.cutAt_session source name (by omega) Nat.one_pos (by omega)
    exact Result.ofSession_eq_of_cutAt hcut hcut'

/-- Two failures and an expression, cut off at the first failure, at the last one or not at all. -/
theorem run_limit_default :
    let run (limit : Option Int) := { Options.default with limit := limit }.run ")) 1".toList none
    failuresOf (run none).units = 2 ∧ (run (some 1)).units <+: (run none).units ∧
      failuresOf (run (some 1)).units = 1 ∧ (run (some 2)).aborted = true ∧
      run (some 3) = run none ∧ run (some 0) = run none ∧ run (some (-4)) = run (some 1) := by
  intro run
  have hfailures : failuresOf (run none).units = 2 := by decide +kernel
  obtain ⟨-, hlimit, hzero, hnegative⟩ :=
    run_limit .default anonymousName "<stdin>" ")) 1".toList none
  have hle : ∀ n, n ≤ 2 → n ≤ failuresOf (run none).units := fun n hn => hfailures ▸ hn
  have hlt : failuresOf (run none).units < 3 := by
    rw [hfailures]
    decide
  obtain ⟨hshortest, hone, -⟩ := (hlimit 1 (by decide)).2 (hle 1 (by decide))
  obtain ⟨-, -, -, -, haborted⟩ := (hlimit 2 (by decide)).2 (hle 2 (by decide))
  have hthree := (hlimit 3 (by decide)).1 hlt
  exact ⟨hfailures, hshortest.isPart, hone, haborted, hthree, hzero, hnegative (-4) (by decide)⟩

end Options
end ExprFront
