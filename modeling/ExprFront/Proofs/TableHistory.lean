import Mathlib.Data.List.Induction
import Mathlib.Data.List.Nodup
import ExprFront.Operator.Setting
import ExprFront.Operator.Spec

/-!
# Histories of a table

Operations on a table may fail. What a history of them leaves behind is told by its events, the
single writes and deletions of characters: a character has the value of its last write unless it was
deleted since, and comes in where it was first written since it was last deleted.
-/

namespace ExprFront
set_option autoImplicit false

namespace OperatorTable

/-! ## Operations -/

/-- An operation on the table in use. -/
inductive Operation
  /-- A new table, made from a mapping, takes the place of the one in use. -/
  | renew (entries : List (String × Datum))
  | set (operator : String) (value : Datum)
  | update (entries : List (String × Datum))
  | delete (operator : String)
  /-- Reads a specification and sets the operator that it gives. -/
  | specify (spec : String)

inductive OperationFault
  | install (fault : InstallFault)
  | operator (fault : OperatorFault)
  | spec (fault : SpecFault)
  deriving DecidableEq

/-- The table in use after something that gives a table or fails. -/
def orKept {ε : Type} (t : OperatorTable) (fault : ε → OperationFault) :
    Except ε OperatorTable → OperatorTable × Option OperationFault
  | .ok u => (u, none)
  | .error e => (t, some (fault e))

/-- The table in use after an operation, and the fault if the operation fails. -/
def perform (t : OperatorTable) : Operation → OperatorTable × Option OperationFault
  | .renew entries => t.orKept .install (ofData entries)
  | .set operator value => t.orKept .install (t.install operator value)
  | .update entries => ((t.installAll entries).1, (t.installAll entries).2.map .install)
  | .delete operator => t.orKept .operator (t.remove operator)
  | .specify spec =>
    match readSpec spec with
    | .ok (c, n) => t.orKept .install (t.install (String.singleton c) (.integer n))
    | .error fault => (t, some (.spec fault))

/-- The table in use after a history. At first it is empty. -/
def afterHistory (ops : List Operation) : OperatorTable :=
  ops.foldl (fun t op => (t.perform op).1) empty

/-! ## Events -/

inductive Event
  | write (c : Char) (n : Int)
  | erase (c : Char)
  /-- All characters are deleted. -/
  | clear

namespace Event

def writes (c : Char) : Event → Bool
  | .write d _ => d = c
  | _ => false

def removes (c : Char) : Event → Bool
  | .write _ _ => false
  | .erase d => d = c
  | .clear => true

end Event

/-- The last write to `c` was of `n`, and `c` was not deleted since. -/
def LastWrite (es : List Event) (c : Char) (n : Int) : Prop :=
  ∃ before after, es = before ++ .write c n :: after ∧
    ∀ e ∈ after, e.writes c = false ∧ e.removes c = false

/-- The first write to `c` since it was last deleted came after the events `before`. -/
def FirstWrite (es : List Event) (c : Char) (before : List Event) : Prop :=
  ∃ n after, es = before ++ .write c n :: after ∧ (∀ e ∈ after, e.removes c = false) ∧
    ∀ old m since, before = old ++ .write c m :: since → ∃ e ∈ since, e.removes c = true

/-- The first write to `c` came before that to `d`. -/
def Precedes (es : List Event) (c d : Char) : Prop :=
  ∃ before before', FirstWrite es c before ∧ FirstWrite es d before' ∧
    before.length < before'.length

/-- The table holds what the events leave behind. -/
structure Records (t : OperatorTable) (es : List Event) : Prop where
  nodup : t.keys.Nodup
  find?_eq_some_iff : ∀ c n, t.find? c = some n ↔ LastWrite es c n
  ordered : t.keys.Pairwise (Precedes es)

section Events
variable {es : List Event} {e : Event} {c d : Char} {n m : Int}

theorem not_lastWrite_nil : ¬ LastWrite [] c n := by
  rintro ⟨before, after, h, -⟩
  simp at h

theorem lastWrite_concat : LastWrite (es ++ [e]) c n ↔
    e = .write c n ∨ LastWrite es c n ∧ e.writes c = false ∧ e.removes c = false := by
  constructor
  · rintro ⟨before, after, h, hafter⟩
    obtain rfl | ⟨after, x, rfl⟩ := List.eq_nil_or_concat after
    · exact .inl (List.append_inj_right' h rfl |> List.singleton_inj.mp)
    · rw [List.concat_eq_append, ← List.cons_append, ← List.append_assoc] at h
      obtain ⟨hes, hx⟩ := List.append_inj' h rfl
      obtain rfl := List.singleton_inj.mp hx
      refine .inr ⟨⟨before, after, hes, fun y hy => hafter y (by simp [hy])⟩, hafter e (by simp)⟩
  · rintro (rfl | ⟨⟨before, after, rfl, hafter⟩, he⟩)
    · exact ⟨es, [], rfl, by simp⟩
    · refine ⟨before, after ++ [e], by simp, ?_⟩
      rw [List.forall_mem_append]
      exact ⟨hafter, by simpa using he⟩

theorem FirstWrite.concat {before : List Event} (h : FirstWrite es c before)
    (he : e.removes c = false) : FirstWrite (es ++ [e]) c before := by
  obtain ⟨n, after, rfl, hafter, hold⟩ := h
  refine ⟨n, after ++ [e], by simp, ?_, hold⟩
  rw [List.forall_mem_append]
  exact ⟨hafter, by simpa using he⟩

theorem FirstWrite.length_lt {before : List Event} (h : FirstWrite es c before) :
    before.length < es.length := by
  obtain ⟨n, after, rfl, -⟩ := h
  simp

theorem Precedes.concat (h : Precedes es c d) (hc : e.removes c = false)
    (hd : e.removes d = false) : Precedes (es ++ [e]) c d := by
  obtain ⟨before, before', hb, hb', hlt⟩ := h
  exact ⟨before, before', hb.concat hc, hb'.concat hd, hlt⟩

/-- After a write that no deletion follows there is a last one. -/
theorem exists_lastWrite (old : List Event) (since : List Event)
    (h : ∀ e ∈ since, e.removes c = false) :
    ∃ n, LastWrite (old ++ .write c m :: since) c n := by
  induction since using List.reverseRecOn with
  | nil => exact ⟨m, lastWrite_concat.mpr (.inl rfl)⟩
  | append_singleton since e ih =>
    obtain ⟨hsince, he⟩ := List.forall_mem_append.mp h
    have he := he e (by simp)
    obtain ⟨n, hn⟩ := ih hsince
    rw [← List.cons_append, ← List.append_assoc]
    cases hw : e.writes c with
    | false => exact ⟨n, lastWrite_concat.mpr (.inr ⟨hn, hw, he⟩)⟩
    | true =>
      cases e with
      | write d k =>
        obtain rfl : d = c := of_decide_eq_true hw
        exact ⟨k, lastWrite_concat.mpr (.inl rfl)⟩
      | erase | clear => simp [Event.writes] at hw

/-- A character that has no value is written for the first time. -/
theorem firstWrite_concat (h : ∀ m, ¬ LastWrite es c m) (n : Int) :
    FirstWrite (es ++ [.write c n]) c es := by
  refine ⟨n, [], rfl, by simp, ?_⟩
  rintro old m since rfl
  by_contra hnone
  obtain ⟨k, hk⟩ := exists_lastWrite (m := m) old since (by simpa using hnone)
  exact h k hk

theorem LastWrite.exists_firstWrite (h : LastWrite es c n) : ∃ before, FirstWrite es c before := by
  induction es using List.reverseRecOn generalizing n with
  | nil => exact absurd h not_lastWrite_nil
  | append_singleton es e ih =>
    obtain rfl | ⟨hes, -, he⟩ := lastWrite_concat.mp h
    · by_cases hold : ∃ m, LastWrite es c m
      · obtain ⟨m, hm⟩ := hold
        obtain ⟨before, hb⟩ := ih hm
        exact ⟨before, hb.concat rfl⟩
      · exact ⟨es, firstWrite_concat (not_exists.mp hold) n⟩
    · obtain ⟨before, hb⟩ := ih hes
      exact ⟨before, hb.concat he⟩

end Events

/-! ## What events do to a table -/

/-- The table after an event. -/
def apply (t : OperatorTable) : Event → OperatorTable
  | .write c n => t.insert c n
  | .erase c => t.erase c
  | .clear => empty

namespace Records
variable {t : OperatorTable} {es : List Event}

theorem empty_nil : Records empty [] where
  nodup := .nil
  find?_eq_some_iff := by
    intro c n
    exact iff_of_false (by simp [find?, empty]) not_lastWrite_nil
  ordered := .nil

theorem mem_keys_iff (h : Records t es) (c : Char) : c ∈ t.keys ↔ ∃ n, LastWrite es c n := by
  rw [t.mem_keys_iff]
  exact exists_congr (h.find?_eq_some_iff c)

theorem write (h : Records t es) (c : Char) (n : Int) :
    Records (t.insert c n) (es ++ [.write c n]) := by
  have hkeep : t.keys.Pairwise (Precedes (es ++ [.write c n])) :=
    h.ordered.imp fun hp => hp.concat rfl rfl
  refine ⟨?_, ?_, ?_⟩
  · rw [keys_insert]
    split
    · exact h.nodup
    · next hc =>
      have hne : ∀ d ∈ t.keys, d ≠ c := fun d hd => ne_of_mem_of_not_mem hd hc
      exact List.nodup_append.mpr ⟨h.nodup, List.nodup_singleton c, by simpa using hne⟩
  · intro d m
    rw [find?_insert, lastWrite_concat]
    by_cases hd : d = c
    · subst hd
      simp [Event.writes]
    · rw [if_neg hd, h.find?_eq_some_iff]
      simp [Event.writes, Event.removes, Ne.symm hd]
  · rw [keys_insert]
    split
    · exact hkeep
    · next hc =>
      -- Every character that is there was written before.
      have hnew := firstWrite_concat (not_exists.mp (mt (h.mem_keys_iff c).mpr hc)) n
      refine List.pairwise_append.mpr ⟨hkeep, List.pairwise_singleton _ _, ?_⟩
      intro d hd k hk
      obtain rfl := List.mem_singleton.mp hk
      obtain ⟨m, hm⟩ := (h.mem_keys_iff d).mp hd
      obtain ⟨before, hb⟩ := hm.exists_firstWrite
      exact ⟨before, es, hb.concat rfl, hnew, hb.length_lt⟩

theorem erase (h : Records t es) (c : Char) : Records (t.erase c) (es ++ [.erase c]) := by
  have hremoves : ∀ {d}, d ≠ c → (Event.erase c).removes d = false :=
    fun hd => decide_eq_false (Ne.symm hd)
  refine ⟨?_, ?_, ?_⟩
  · rw [keys_erase]
    exact h.nodup.filter _
  · intro d m
    rw [find?_erase, lastWrite_concat]
    by_cases hd : d = c
    · subst hd
      simp [Event.removes]
    · rw [if_neg hd, h.find?_eq_some_iff]
      simp [Event.writes, hremoves hd]
  · rw [keys_erase, List.pairwise_filter]
    refine h.ordered.imp ?_
    intro d k hp hd hk
    exact hp.concat (hremoves (by simpa using hd)) (hremoves (by simpa using hk))

theorem clear (es : List Event) : Records empty (es ++ [.clear]) where
  nodup := .nil
  find?_eq_some_iff := by
    intro c n
    rw [lastWrite_concat]
    simp [find?, empty, Event.removes]
  ordered := .nil

theorem apply (h : Records t es) (e : Event) : Records (t.apply e) (es ++ [e]) := by
  cases e with
  | write c n => exact h.write c n
  | erase c => exact h.erase c
  | clear => exact clear es

theorem applyAll (h : Records t es) (es' : List Event) :
    Records (es'.foldl OperatorTable.apply t) (es ++ es') := by
  induction es' generalizing t es with
  | nil => rwa [List.append_nil]
  | cons e es' ih =>
    rw [List.foldl_cons, List.append_cons]
    exact ih (h.apply e)

end Records

/-! ## The events of a history -/

/-- The character and the integer that an entry writes, if it has them. -/
def write? (entry : String × Datum) : Option (Char × Int) :=
  (singleChar? entry.1).bind fun c => entry.2.toInteger.toOption.map fun n => (c, n)

/-- The writes of entries, up to the first entry that writes nothing. -/
def writesOf : List (String × Datum) → List Event
  | [] => []
  | entry :: rest =>
    match write? entry with
    | some (c, n) => .write c n :: writesOf rest
    | none => []

namespace Operation

/-- What an operation does to single characters. A failing operation does nothing, unless it is an
update; the deletion of a character that has no value comes to nothing as well. -/
def events : Operation → List Event
  | .renew entries =>
    if ∀ e ∈ entries, (write? e).isSome then .clear :: writesOf entries else []
  | .set operator value => writesOf [(operator, value)]
  | .update entries => writesOf entries
  | .delete operator => ((singleChar? operator).map .erase).toList
  | .specify spec =>
    match readSpec spec with
    | .ok (c, n) => [.write c n]
    | .error _ => []

/-- The operation cannot be carried out on the table. -/
def Refused (t : OperatorTable) : Operation → Prop
  | .renew entries => ∃ e ∈ entries, write? e = none
  | .set operator value => write? (operator, value) = none
  | .update entries => ∃ e ∈ entries, write? e = none
  | .delete operator => ∀ c ∈ t.keys, operator ≠ String.singleton c
  | .specify spec => ∃ fault, readSpec spec = .error fault

/-- What a failing operation leaves behind of a table: an update leaves the entries in front of the
first bad one, installed in order, and all others leave the table as it was. -/
def Leaves (t u : OperatorTable) (fault : OperationFault) : Operation → Prop
  | .update entries => ∃ good bad rest cause, entries = good ++ bad :: rest ∧
      good.foldlM (fun t e => t.install e.1 e.2) t = .ok u ∧
      u.install bad.1 bad.2 = .error cause ∧ fault = .install cause
  | _ => u = t

/-- How an operation may end: it fails if it cannot be carried out, and only then. -/
structure Outcome (op : Operation) (t : OperatorTable) (r : OperatorTable × Option OperationFault) :
    Prop where
  fails_iff : r.2.isSome = true ↔ op.Refused t
  leaves : ∀ fault, r.2 = some fault → op.Leaves t r.1 fault

end Operation

section Entries
variable {t : OperatorTable} {operator : String} {value : Datum}

theorem install_eq_ok {c : Char} {n : Int} (h : write? (operator, value) = some (c, n)) :
    t.install operator value = .ok (t.insert c n) := by
  unfold write? at h
  unfold install
  cases hc : singleChar? operator with
  | none => simp [hc] at h
  | some d =>
    cases hn : value.toInteger with
    | error fault => simp [hc, hn, Except.toOption] at h
    | ok m =>
      simp only [hc, hn, Except.toOption, Option.bind_some, Option.map_some, Option.some.injEq,
        Prod.mk.injEq] at h
      obtain ⟨rfl, rfl⟩ := h
      rfl

theorem install_eq_error (h : write? (operator, value) = none) :
    ∃ fault, t.install operator value = .error fault := by
  unfold write? at h
  unfold install
  cases hc : singleChar? operator with
  | none => exact ⟨_, rfl⟩
  | some d =>
    cases hn : value.toInteger with
    | error fault => exact ⟨_, rfl⟩
    | ok m => simp [hc, hn, Except.toOption] at h

variable {entries good rest : List (String × Datum)}

/-- Entries that can all be written are installed one after the other. -/
theorem foldlM_install (h : ∀ e ∈ entries, (write? e).isSome) (t : OperatorTable) :
    entries.foldlM (fun t e => t.install e.1 e.2) t = .ok ((writesOf entries).foldl apply t) := by
  induction entries generalizing t with
  | nil => rfl
  | cons entry rest ih =>
    obtain ⟨hentry, hrest⟩ := List.forall_mem_cons.mp h
    obtain ⟨⟨c, n⟩, hw⟩ := Option.isSome_iff_exists.mp hentry
    rw [List.foldlM_cons, install_eq_ok hw, writesOf, hw]
    exact ih hrest _

theorem installAll_append {u : OperatorTable}
    (h : good.foldlM (fun t e => t.install e.1 e.2) t = .ok u) (rest : List (String × Datum)) :
    t.installAll (good ++ rest) = u.installAll rest := by
  induction good generalizing t with
  | nil =>
    obtain rfl := Except.ok.inj h
    rfl
  | cons entry good ih =>
    rw [List.foldlM_cons] at h
    rw [List.cons_append, installAll]
    cases hi : t.install entry.1 entry.2 with
    | error fault =>
      rw [hi] at h
      cases h
    | ok v =>
      rw [hi] at h
      exact ih h

theorem writesOf_append (h : ∀ e ∈ good, (write? e).isSome) (rest : List (String × Datum)) :
    writesOf (good ++ rest) = writesOf good ++ writesOf rest := by
  induction good with
  | nil => rfl
  | cons entry good ih =>
    obtain ⟨hentry, hgood⟩ := List.forall_mem_cons.mp h
    obtain ⟨⟨c, n⟩, hw⟩ := Option.isSome_iff_exists.mp hentry
    rw [List.cons_append, writesOf, writesOf, hw]
    exact congrArg _ (ih hgood)

/-- What is installed before the first entry that is refused. -/
theorem exists_refused (h : ∃ e ∈ entries, write? e = none) :
    ∃ good bad rest, entries = good ++ bad :: rest ∧ (∀ e ∈ good, (write? e).isSome) ∧
      write? bad = none := by
  obtain ⟨e, he, hnone⟩ := h
  have hfound : (entries.find? fun e => (write? e).isNone).isSome :=
    List.find?_isSome.mpr ⟨e, he, by rw [hnone]; rfl⟩
  obtain ⟨bad, hbad⟩ := Option.isSome_iff_exists.mp hfound
  obtain ⟨hnone, good, rest, hentries, hgood⟩ := List.find?_eq_some_iff_append.mp hbad
  exact ⟨good, bad, rest, hentries, by simpa using hgood, Option.isNone_iff_eq_none.mp hnone⟩

theorem installAll_of_writes (h : ∀ e ∈ entries, (write? e).isSome) (t : OperatorTable) :
    t.installAll entries = ((writesOf entries).foldl apply t, none) := by
  rw [← List.append_nil entries, installAll_append (foldlM_install h t), List.append_nil]
  rfl

/-- An update that fails has installed the entries in front of the first one that is refused. -/
theorem installAll_of_refused (h : ∃ e ∈ entries, write? e = none) (t : OperatorTable) :
    ∃ good bad rest cause, entries = good ++ bad :: rest ∧
      good.foldlM (fun t e => t.install e.1 e.2) t = .ok ((writesOf entries).foldl apply t) ∧
      ((writesOf entries).foldl apply t).install bad.1 bad.2 = .error cause ∧
      t.installAll entries = ((writesOf entries).foldl apply t, some cause) := by
  obtain ⟨good, bad, rest, rfl, hgood, hbad⟩ := exists_refused h
  have hwrites : writesOf (good ++ bad :: rest) = writesOf good := by
    rw [writesOf_append hgood, writesOf, hbad, List.append_nil]
  have hfold := foldlM_install hgood t
  rw [hwrites]
  obtain ⟨cause, hcause⟩ := install_eq_error (t := (writesOf good).foldl apply t) hbad
  refine ⟨good, bad, rest, cause, rfl, hfold, hcause, ?_⟩
  rw [installAll_append hfold, installAll, hcause]

end Entries

/-! ## Single operations -/

theorem erase_of_notMem {t : OperatorTable} {c : Char} (h : c ∉ t.keys) : t.erase c = t := by
  have hne : ∀ e ∈ t.entries, e.1 ≠ c := fun e he hc => h (hc ▸ List.mem_map_of_mem he)
  rw [erase, List.filter_eq_self.mpr (by simpa using hne)]

/-- What the events of an operation do is done, and the operation fails only if it has to. -/
def Operation.Done (op : Operation) (t : OperatorTable) : Prop :=
  (t.perform op).1 = op.events.foldl apply t ∧ op.Outcome t (t.perform op)

namespace Operation
variable {op : Operation} {t u : OperatorTable}

theorem Outcome.succeeds (h : ¬ op.Refused t) : op.Outcome t (u, none) :=
  ⟨iff_of_false (by simp) h, by simp⟩

theorem Outcome.fails {fault : OperationFault} (h : op.Refused t) (hl : op.Leaves t u fault) :
    op.Outcome t (u, some fault) :=
  ⟨iff_of_true rfl h, by rintro _ ⟨⟩; exact hl⟩

theorem done_set (t : OperatorTable) (operator : String) (value : Datum) :
    (set operator value).Done t := by
  cases hw : write? (operator, value) with
  | none =>
    obtain ⟨fault, hf⟩ := install_eq_error (t := t) hw
    have hperform : t.perform (.set operator value) = (t, some (.install fault)) := by
      rw [perform, hf, orKept]
    rw [Done, hperform, events, writesOf, hw]
    exact ⟨rfl, .fails hw rfl⟩
  | some w =>
    have hperform : t.perform (.set operator value) = (t.insert w.1 w.2, none) := by
      rw [perform, install_eq_ok hw, orKept]
    rw [Done, hperform, events, writesOf, hw]
    exact ⟨rfl, .succeeds (by simp [Refused, hw])⟩

theorem not_refused_of_writes {entries : List (String × Datum)}
    (h : ∀ e ∈ entries, (write? e).isSome) : ¬ ∃ e ∈ entries, write? e = none := by
  rintro ⟨e, he, hnone⟩
  simpa [hnone] using h e he

theorem writes_of_not_refused {entries : List (String × Datum)}
    (h : ¬ ∃ e ∈ entries, write? e = none) : ∀ e ∈ entries, (write? e).isSome := by
  intro e he
  rw [Option.isSome_iff_ne_none]
  exact fun hnone => h ⟨e, he, hnone⟩

theorem done_renew (t : OperatorTable) (entries : List (String × Datum)) :
    (renew entries).Done t := by
  by_cases h : ∃ e ∈ entries, write? e = none
  · obtain ⟨good, bad, rest, cause, -, -, -, hall⟩ := installAll_of_refused h empty
    have hperform : t.perform (.renew entries) = (t, some (.install cause)) := by
      rw [perform, ofData, hall, orKept]
    have hevents : (renew entries).events = [] :=
      if_neg fun hw => not_refused_of_writes hw h
    rw [Done, hperform, hevents]
    exact ⟨rfl, .fails h rfl⟩
  · have hw := writes_of_not_refused h
    have hperform : t.perform (.renew entries) = ((writesOf entries).foldl apply empty, none) := by
      rw [perform, ofData, installAll_of_writes hw, orKept]
    have hevents : (renew entries).events = .clear :: writesOf entries := if_pos hw
    rw [Done, hperform, hevents]
    exact ⟨rfl, .succeeds h⟩

theorem done_update (t : OperatorTable) (entries : List (String × Datum)) :
    (update entries).Done t := by
  by_cases h : ∃ e ∈ entries, write? e = none
  · obtain ⟨good, bad, rest, cause, hentries, hgood, hbad, hall⟩ := installAll_of_refused h t
    rw [Done, perform, hall]
    exact ⟨rfl, .fails h ⟨good, bad, rest, cause, hentries, hgood, hbad, rfl⟩⟩
  · have hw := writes_of_not_refused h
    rw [Done, perform, installAll_of_writes hw]
    exact ⟨rfl, .succeeds h⟩

theorem done_delete (t : OperatorTable) (operator : String) : (delete operator).Done t := by
  cases hc : singleChar? operator with
  | none =>
    have hperform : t.perform (.delete operator) = (t, some (.operator (.missing operator))) := by
      simp only [perform, remove, hc, orKept]
    rw [Done, hperform, events, hc]
    refine ⟨rfl, .fails ?_ rfl⟩
    rintro c - rfl
    rw [(singleChar?_eq_some_iff _ c).mpr rfl] at hc
    simp at hc
  | some c =>
    obtain rfl := (singleChar?_eq_some_iff _ _).mp hc
    by_cases hmem : c ∈ t.keys
    · obtain ⟨n, hn⟩ := (t.mem_keys_iff c).mp hmem
      have hperform : t.perform (.delete (String.singleton c)) = (t.erase c, none) := by
        simp only [perform, remove, hc, hn, Option.isSome_some, if_true, orKept]
      rw [Done, hperform, events, hc]
      exact ⟨rfl, .succeeds fun h => h c hmem rfl⟩
    · have hnone : t.find? c = none :=
        Option.eq_none_iff_forall_ne_some.mpr fun n hn => hmem ((t.mem_keys_iff c).mpr ⟨n, hn⟩)
      have hperform : t.perform (.delete (String.singleton c)) =
          (t, some (.operator (.missing (String.singleton c)))) := by
        simp only [perform, remove, hc, hnone, Option.isSome_none, Bool.false_eq_true, if_false,
          orKept]
      rw [Done, hperform, events, hc]
      refine ⟨(erase_of_notMem hmem).symm, .fails ?_ rfl⟩
      rintro d hd hcd
      exact hmem (String.singleton_inj.mp hcd ▸ hd)

theorem done_specify (t : OperatorTable) (spec : String) : (specify spec).Done t := by
  cases hs : readSpec spec with
  | error fault =>
    have hperform : t.perform (.specify spec) = (t, some (.spec fault)) := by
      rw [perform, hs]
    rw [Done, hperform, events, hs]
    exact ⟨rfl, .fails ⟨fault, hs⟩ rfl⟩
  | ok w =>
    obtain ⟨c, n⟩ := w
    have hperform : t.perform (.specify spec) = (t.insert c n, none) := by
      simp only [perform, hs, install_singleton, orKept]
    rw [Done, hperform, events, hs]
    exact ⟨rfl, .succeeds (by simp [Refused, hs])⟩

theorem done (op : Operation) (t : OperatorTable) : op.Done t := by
  cases op with
  | renew entries => exact done_renew t entries
  | set operator value => exact done_set t operator value
  | update entries => exact done_update t entries
  | delete operator => exact done_delete t operator
  | specify spec => exact done_specify t spec

end Operation

/-! ## Whole histories -/

theorem Records.history {t : OperatorTable} {es : List Event} (h : Records t es)
    (ops : List Operation) :
    Records (ops.foldl (fun t op => (t.perform op).1) t) (es ++ ops.flatMap Operation.events) := by
  induction ops generalizing t es with
  | nil => simpa using h
  | cons op ops ih =>
    rw [List.foldl_cons, List.flatMap_cons, ← List.append_assoc, (op.done t).1]
    exact ih (h.applyAll op.events)

/-- The precedence of an operator after some events: its value, if it is an ASCII character with a
positive value. -/
inductive Ranks (es : List Event) : Option String → Int → Prop
  | value {c : Char} {n : Int} (hc : c.toNat < 128) (hn : 0 < n) (h : LastWrite es c n) :
      Ranks es (some (String.singleton c)) n
  | none {operator : Option String}
      (h : ∀ c n, operator = some (String.singleton c) → c.toNat < 128 → LastWrite es c n → n ≤ 0) :
      Ranks es operator notAnOperator

theorem Records.ranks {t : OperatorTable} {es : List Event} (h : Records t es)
    (operator : Option String) : Ranks es operator (t.precedenceOf operator) := by
  cases hc : operator.bind singleChar? with
  | none =>
    simp only [precedenceOf, hc]
    refine .none ?_
    rintro c n rfl
    rw [Option.bind_some, (singleChar?_eq_some_iff _ c).mpr rfl] at hc
    simp at hc
  | some c =>
    obtain ⟨s, rfl, hs⟩ := Option.bind_eq_some_iff.mp hc
    obtain rfl := (singleChar?_eq_some_iff s c).mp hs
    simp only [precedenceOf, hc]
    by_cases hvalue : c.toNat < 128 ∧ ∃ n, 0 < n ∧ LastWrite es c n
    · obtain ⟨hascii, n, hn, hlast⟩ := hvalue
      have hprecedence : t.precedence c = n := by
        simp only [precedence, if_neg (Nat.not_le.mpr hascii),
          (h.find?_eq_some_iff c n).mpr hlast, if_pos hn]
      rw [hprecedence]
      exact .value hascii hn hlast
    · have hlow : ∀ n, c.toNat < 128 → LastWrite es c n → n ≤ 0 := fun n hascii hlast =>
        Int.not_lt.mp fun hn => hvalue ⟨hascii, n, hn, hlast⟩
      have hprecedence : t.precedence c = notAnOperator := by
        unfold precedence
        split
        · rfl
        · next hascii =>
          cases hn : t.find? c with
          | none => rfl
          | some n =>
            have hle := hlow n (Nat.not_le.mp hascii) ((h.find?_eq_some_iff c n).mp hn)
            exact if_neg (Int.not_lt.mpr hle)
      rw [hprecedence]
      refine .none ?_
      intro d n hd hascii hlast
      obtain rfl := String.singleton_inj.mp (Option.some.inj hd)
      exact hlow n hascii hlast

theorem Ranks.ne_zero {es : List Event} {operator : Option String} {n : Int}
    (h : Ranks es operator n) : n ≠ 0 := by
  cases h with
  | value hc hn => exact Int.ne_of_gt hn
  | none => decide

theorem contains_iff (t : OperatorTable) (operator : String) :
    t.contains operator = true ↔ ∃ c ∈ t.keys, operator = String.singleton c := by
  rw [contains, Option.isSome_iff_exists]
  constructor
  · rintro ⟨n, hn⟩
    obtain ⟨c, hc, hn⟩ := Option.bind_eq_some_iff.mp hn
    exact ⟨c, (t.mem_keys_iff c).mpr ⟨n, hn⟩, (singleChar?_eq_some_iff operator c).mp hc⟩
  · rintro ⟨c, hc, rfl⟩
    obtain ⟨n, hn⟩ := (t.mem_keys_iff c).mp hc
    exact ⟨n, Option.bind_eq_some_iff.mpr ⟨c, (singleChar?_eq_some_iff _ c).mpr rfl, hn⟩⟩

/-- A table holds what its history leaves behind: its operators are distinct characters in the order
in which they were first written, each with the value written last. An operation that fails leaves
the table as it was, or, if it is an update, with the entries before the first bad one. -/
theorem afterHistory_records (ops : List Operation) :
    let t := afterHistory ops
    let es := ops.flatMap Operation.events
    Records t es ∧
      (∀ operator, t.contains operator = true ↔ ∃ c ∈ t.keys, operator = String.singleton c) ∧
      (∀ op : Operation, op.Outcome t (t.perform op)) ∧
      ∀ operator, Ranks es operator (t.precedenceOf operator) ∧ t.precedenceOf operator ≠ 0 := by
  intro t es
  have h : Records t es := Records.empty_nil.history ops
  refine ⟨h, t.contains_iff, fun op => (op.done t).2, fun operator => ?_⟩
  have hranks := h.ranks operator
  exact ⟨hranks, hranks.ne_zero⟩

example : (afterHistory [.set "+" (.integer 1), .specify "-=2", .delete "+", .set "-" (.text " 7"),
    .update [("+", .integer 3), ("no", .integer 4), ("*", .integer 5)]]).entries =
    [('-', 7), ('+', 3)] := by decide

end OperatorTable

end ExprFront
