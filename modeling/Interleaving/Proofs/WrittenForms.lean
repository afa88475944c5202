import Interleaving.Config
import Interleaving.Level.Text
import Interleaving.Race
import Interleaving.Proofs.JsonTexts

/-!
# Written forms lose nothing

A record may be written as an object, its fields in any order, or as a list of the values of its
fields; a name of a closed list as a text or as an object with this one key. Records hold others, so
there are many ways to write a level. All of them are read as the level that was written, if its
numbers are those of the program: threads, steps, targets and drawn values of 32 bits, the others of
64 bits.

## Main definitions

* `Json.Record`, `Json.Spelling` — the ways to write a record and a name.
* `Draw.Form`, `Pending.Form`, `Entry.Form`, `Level.Form`, `Config.Form`, `Directive.Form`,
  `Race.Form`, `Event.Form` — the ways to write a value.
* `Draw.Fits` and the like — the numbers of a value have their bits.
* `Json.Lossless` — a value can be read from all its forms, and from their texts.

## Main statements

* `Json.Record.fields?` — the fields that are found in a record.
* `forms_lossless` — all values of all records.
-/

namespace Interleaving

namespace Json

variable {α : Type} {read : Json → Option α} {a : α} {j value : Json} {o : Option Json}
  {fields : List (String × Json)}

/-! ## Records -/

/-- The ways to write a record: a list of the values of its fields in their order, or an object with
the fields in any order, where those that are null may be left out. -/
inductive Record (fields : List (String × Json)) : Json → Prop
  | array : Record fields (.arr (fields.map Prod.snd))
  | object {members : List (String × Json)} (subperm : members.Subperm fields)
      (left_out : ∀ m ∈ fields, m ∉ members → m.2 = .null) : Record fields (.obj members)

theorem record_of_perm {members : List (String × Json)} (h : members.Perm fields) :
    Record fields (.obj members) :=
  .object h.subperm fun _ hm hnot => absurd (h.mem_iff.2 hm) hnot

theorem record_obj (fields : List (String × Json)) : Record fields (.obj fields) :=
  record_of_perm (.refl fields)

/-- What is found of a field: its value, or nothing if that is null. -/
def Stands (value : Json) (o : Option Json) : Prop := o = some value ∨ value = .null ∧ o = none

theorem lookup_eq_some {members : List (String × Json)} (nodup : (members.map Prod.fst).Nodup)
    {m : String × Json} (hm : m ∈ members) : members.lookup m.1 = some m.2 := by
  obtain ⟨before, after, rfl⟩ := List.append_of_mem hm
  refine List.lookup_eq_some_iff.2 ⟨before, after, rfl, fun p hp => bne_iff_ne.2 fun heq => ?_⟩
  rw [List.map_append, List.nodup_append] at nodup
  exact nodup.2.2 p.1 (List.mem_map_of_mem hp) m.1 List.mem_cons_self heq.symm

/-- The members of an object are some of the fields, none of them twice. -/
theorem nodup_of_subperm {members : List (String × Json)} (h : members.Subperm fields)
    (nodup : (fields.map Prod.fst).Nodup) : (members.map Prod.fst).Nodup := by
  obtain ⟨ordered, hperm, hsublist⟩ := h
  exact (hperm.map Prod.fst).nodup_iff.1 ((hsublist.map Prod.fst).nodup nodup)

/-- The fields of a record are found in each of its forms. -/
theorem Record.fields? {names : List String} (h : Record fields j)
    (nodup : names.Nodup) (hnames : fields.map Prod.fst = names) :
    ∃ found, j.fields? names = some found ∧
      List.Forall₂ (fun m o => Stands m.2 o) fields found := by
  subst hnames
  cases h with
  | array =>
    refine ⟨(fields.map Prod.snd).map some, by simp [Json.fields?], ?_⟩
    simp [List.forall₂_map_right_iff, List.forall₂_same, Stands]
  | @object members subperm left_out =>
    refine ⟨_, rfl, ?_⟩
    simp only [List.map_map, List.forall₂_map_right_iff, List.forall₂_same, Function.comp_apply]
    intro m hm
    by_cases hmem : m ∈ members
    · exact .inl (lookup_eq_some (nodup_of_subperm subperm nodup) hmem)
    · refine .inr ⟨left_out m hm hmem, List.lookup_eq_none_iff.2 fun p hp => ?_⟩
      -- another member of this name would be another field of this name
      refine bne_iff_ne.2 fun heq => hmem ?_
      have hvalue := lookup_eq_some nodup (subperm.subset hp)
      rw [← heq, lookup_eq_some nodup hm] at hvalue
      exact (Prod.ext heq (Option.some.inj hvalue)).symm ▸ hp

theorem Record.plain {names : List String} (h : Record fields j)
    (nodup : names.Nodup) (hnames : fields.map Prod.fst = names)
    (hfields : ∀ m ∈ fields, m.2.Plain) : j.Plain := by
  subst hnames
  cases h with
  | array =>
    refine .arr fun j hj => ?_
    obtain ⟨m, hm, rfl⟩ := List.mem_map.1 hj
    exact hfields m hm
  | object subperm _ =>
    exact .obj (nodup_of_subperm subperm nodup) fun m hm => hfields m (subperm.subset hm)

/-! ## Fields -/

/-- The value is read of the JSON value, and this is read of its text. -/
structure Reads (read : Json → Option α) (a : α) (j : Json) : Prop where
  plain : j.Plain
  eq : read j = some a

theorem Stands.required (h : Stands value o) (hread : read value = some a)
    (hnull : read .null = none) : required? read o = some a := by
  rcases h with rfl | ⟨rfl, -⟩
  · exact hread
  · simp [hnull] at hread

theorem Stands.optional {form : α → Json} {found : Option α} (h : Stands (.option form found) o)
    (hread : ∀ a ∈ found, read (form a) = some a) (hnull : read .null = none) :
    optional? read o = some found := by
  cases found with
  | none => rcases h with rfl | ⟨-, rfl⟩ <;> rfl
  | some a =>
    change Stands (form a) o at h
    have ha := hread a rfl
    generalize form a = v at h ha
    rcases h with rfl | ⟨rfl, -⟩
    · cases v with
      | null => simp [hnull] at ha
      | _ => simp [optional?, ha]
    · simp [hnull] at ha

/-- The two ways to write a name of a closed list. -/
inductive Spelling (name : String) : Json → Prop
  | text : Spelling name (.str name)
  | object : Spelling name (.obj [(name, .null)])

theorem Spelling.plain {name : String} (h : Spelling name j) : j.Plain := by
  cases h with
  | text => exact .str name
  | object => exact .obj (by simp) (by simpa using Plain.null)

theorem Spelling.reads {all : List α} {name : α → String} (h : Spelling (name a) j)
    (hfind : all.find? (fun b => name b = name a) = some a) : Reads (named? all name) a j := by
  refine ⟨h.plain, ?_⟩
  have hname : j.name? = some (name a) := by cases h <;> rfl
  rw [named?, hname]
  exact hfind

theorem plain_nat (n : Nat) : (nat n).Plain := .int n

theorem plain_option {form : α → Json} (h : ∀ a, (form a).Plain) :
    ∀ found : Option α, (Json.option form found).Plain
  | none => .null
  | some a => h a

theorem Stands.nat {n bound : Nat} (h : Stands (.nat n) o) (hn : n < bound) :
    required? (natBelow? bound) o = some n :=
  h.required (natBelow?_nat hn) rfl

theorem Stands.bool {b : Bool} (h : Stands (.bool b) o) : required? bool? o = some b :=
  h.required rfl rfl

theorem Stands.nats {found : Option Nat} {bound : Nat} (h : Stands (.option Json.nat found) o)
    (hn : ∀ n ∈ found, n < bound) : optional? (natBelow? bound) o = some found :=
  h.optional (fun n hmem => natBelow?_nat (hn n hmem)) rfl

/-- The items of a list may be written in different ways. -/
theorem reads_list {Form : α → Json → Prop} {as : List α} {js : List Json}
    (h : List.Forall₂ Form as js) (hread : ∀ a ∈ as, ∀ j, Form a j → Reads read a j) :
    Reads (list? read) as (.arr js) := by
  have hall : (∀ j ∈ js, j.Plain) ∧ js.mapM read = some as := by
    induction h with
    | nil => exact ⟨by simp, rfl⟩
    | @cons a j as js hform _ ih =>
      obtain ⟨hplain, heq⟩ := hread a List.mem_cons_self j hform
      obtain ⟨hplains, heqs⟩ := ih fun b hb => hread b (List.mem_cons_of_mem a hb)
      exact ⟨List.forall_mem_cons.2 ⟨hplain, hplains⟩, by simp [heq, heqs]⟩
  exact ⟨.arr hall.1, hall.2⟩

/-- Items may be written as they are written alone. -/
theorem forall₂_map {Form : α → Json → Prop} {toJson : α → Json} (h : ∀ a, Form a (toJson a))
    (as : List α) : List.Forall₂ Form as (as.map toJson) := by
  rw [List.forall₂_map_right_iff, List.forall₂_same]
  exact fun a _ => h a

/-- A value can be read of all its forms and of their texts, and what is written for it is one of
them. -/
structure Lossless (toJson : α → Json) (read : Json → Option α) (Form : α → Json → Prop) (a : α) :
    Prop where
  written : Form a (toJson a)
  form : ∀ j, Form a j → read j = some a
  text : ∀ j, Form a j → (read? j.render).bind read = some a

theorem lossless_of_reads {toJson : α → Json} {Form : α → Json → Prop} (written : Form a (toJson a))
    (hread : ∀ j, Form a j → Reads read a j) : Lossless toJson read Form a := by
  refine ⟨written, fun j hj => (hread j hj).eq, fun j hj => ?_⟩
  rw [(hread j hj).plain.read?_render, Option.bind_some, (hread j hj).eq]

end Json

open Json (Record Reads Spelling Stands)

/-! ## Threads -/

theorem ThreadId.plain_toJson (t : ThreadId) : t.toJson.Plain := .str t.text

theorem ThreadId.reads {t : ThreadId} (h : t < wordBound) : Reads ThreadId.ofJson? t t.toJson :=
  ⟨.str t.text, by simp [ofJson?, toJson, ofText_eq_ok.2 (names_text h), Except.toOption]⟩

theorem Step.plain_toJson (i : Step) : i.toJson.Plain := Json.plain_nat i

theorem Json.Stands.step {i : Step} {o : Option Json} (h : Stands i.toJson o) (hi : i < wordBound) :
    Json.required? Step.ofJson? o = some i :=
  h.nat hi

theorem Json.Stands.steps {found : Option Step} {o : Option Json}
    (h : Stands (.option Step.toJson found) o) (hi : ∀ i ∈ found, i < wordBound) :
    Json.optional? Step.ofJson? o = some found :=
  h.nats hi

/-! ## Names -/

theorem DrawKind.reads {kind : DrawKind} {j : Json} (h : Spelling kind.name j) :
    Reads DrawKind.ofJson? kind j :=
  Spelling.reads h (by cases kind <;> rfl)

theorem Operation.reads {op : Operation} {j : Json} (h : Spelling op.name j) :
    Reads Operation.ofJson? op j :=
  Spelling.reads h (by cases op <;> rfl)

theorem TargetKind.reads {kind : TargetKind} {j : Json} (h : Spelling kind.name j) :
    Reads TargetKind.ofJson? kind j :=
  Spelling.reads h (by cases kind <;> rfl)

theorem Mode.reads {mode : Mode} {j : Json} (h : Spelling mode.name j) :
    Reads Mode.ofJson? mode j :=
  Spelling.reads h (by cases mode <;> rfl)

/-! ## Records of the program -/

namespace Draw

theorem nodup_fieldNames : fieldNames.Nodup := by decide

def Fits (d : Draw) : Prop := d.value < wordBound

/-- The ways to write a draw. -/
def Form (d : Draw) (j : Json) : Prop :=
  ∃ kind, Spelling d.kind.name kind ∧ Record [("kind", kind), ("value", .nat d.value)] j

theorem form_toJson (d : Draw) : d.Form d.toJson := ⟨_, .text, Json.record_obj _⟩

theorem reads {d : Draw} {j : Json} (fits : d.Fits) (h : d.Form j) : Reads ofJson? d j := by
  obtain ⟨kind, hkind, hrecord⟩ := h
  have hkind := DrawKind.reads hkind
  refine ⟨hrecord.plain nodup_fieldNames rfl (by simp [hkind.plain, Json.plain_nat]), ?_⟩
  obtain ⟨found, hfound, _ | ⟨atKind, _ | ⟨atValue, _ | _⟩⟩⟩ := hrecord.fields? nodup_fieldNames rfl
  simp [ofJson?, hfound, atKind.required hkind.eq rfl, atValue.nat fits]

theorem reads_list {ds : List Draw} {js : List Json} (fits : ∀ d ∈ ds, d.Fits)
    (h : List.Forall₂ Form ds js) : Reads (Json.list? ofJson?) ds (.arr js) :=
  Json.reads_list h fun d hd _ hj => reads (fits d hd) hj

end Draw

namespace Pending

theorem nodup_fieldNames : fieldNames.Nodup := by decide

structure Fits (p : Pending) : Prop where
  thread : p.thread < wordBound
  target : ∀ n ∈ p.target, n < wordBound
  sendStep : ∀ i ∈ p.sendStep, i < wordBound

/-- The ways to write what a thread is about to do. -/
def Form (p : Pending) (j : Json) : Prop :=
  ∃ op kind, Spelling p.op.name op ∧ Spelling p.kind.name kind ∧
    Record [("id", p.thread.toJson), ("enabled", .bool p.enabled), ("op", op),
      ("target_type", kind), ("target_id", .option Json.nat p.target),
      ("send_step", .option Step.toJson p.sendStep)] j

theorem form_toJson (p : Pending) : p.Form p.toJson := ⟨_, _, .text, .text, Json.record_obj _⟩

theorem reads {p : Pending} {j : Json} (fits : p.Fits) (h : p.Form j) : Reads ofJson? p j := by
  obtain ⟨op, kind, hop, hkind, hrecord⟩ := h
  have hthread := ThreadId.reads fits.thread
  have hop := Operation.reads hop
  have hkind := TargetKind.reads hkind
  refine ⟨hrecord.plain nodup_fieldNames rfl ?_, ?_⟩
  · simp [hthread.plain, Json.Plain.bool, hop.plain, hkind.plain, Json.plain_option Json.plain_nat,
      Json.plain_option Step.plain_toJson]
  · obtain ⟨found, hfound, _ | ⟨atThread, _ | ⟨atEnabled, _ | ⟨atOp, _ | ⟨atKind, _ | ⟨atTarget,
      _ | ⟨atSend, _ | _⟩⟩⟩⟩⟩⟩⟩ := hrecord.fields? nodup_fieldNames rfl
    simp [ofJson?, hfound, atThread.required hthread.eq rfl, atEnabled.bool,
      atOp.required hop.eq rfl, atKind.required hkind.eq rfl, atTarget.nats fits.target,
      atSend.steps fits.sendStep]

end Pending

namespace Entry

theorem nodup_fieldNames : fieldNames.Nodup := by decide

/-- The ways to write an entry. -/
def Form (e : Entry) (j : Json) : Prop :=
  ∃ op kind, Spelling e.op.name op ∧ Spelling e.kind.name kind ∧
    Record [("id", e.thread.toJson), ("enabled", .bool e.enabled), ("sleep", .bool e.asleep),
      ("backtrack", .bool e.marked), ("op", op), ("target_type", kind),
      ("target_id", .option Json.nat e.target), ("send_step", .option Step.toJson e.sendStep)] j

theorem form_toJson (e : Entry) : e.Form e.toJson := ⟨_, _, .text, .text, Json.record_obj _⟩

theorem reads {e : Entry} {j : Json} (fits : e.toPending.Fits) (h : e.Form j) :
    Reads ofJson? e j := by
  obtain ⟨op, kind, hop, hkind, hrecord⟩ := h
  have hthread := ThreadId.reads fits.thread
  have hop := Operation.reads hop
  have hkind := TargetKind.reads hkind
  refine ⟨hrecord.plain nodup_fieldNames rfl ?_, ?_⟩
  · simp [hthread.plain, Json.Plain.bool, hop.plain, hkind.plain, Json.plain_option Json.plain_nat,
      Json.plain_option Step.plain_toJson]
  · obtain ⟨found, hfound, _ | ⟨atThread, _ | ⟨atEnabled, _ | ⟨atAsleep, _ | ⟨atMarked, _ | ⟨atOp,
      _ | ⟨atKind, _ | ⟨atTarget, _ | ⟨atSend, _ | _⟩⟩⟩⟩⟩⟩⟩⟩⟩ :=
      hrecord.fields? nodup_fieldNames rfl
    simp [ofJson?, hfound, atThread.required hthread.eq rfl, atEnabled.bool, atAsleep.bool,
      atMarked.bool, atOp.required hop.eq rfl, atKind.required hkind.eq rfl,
      atTarget.nats fits.target, atSend.steps fits.sendStep]

end Entry

namespace Level

theorem nodup_fieldNames : fieldNames.Nodup := by decide

structure Fits (l : Level) : Prop where
  step : l.step < wordBound
  entries : ∀ e ∈ l.entries, e.toPending.Fits
  selected : ∀ t ∈ l.selected, t < wordBound
  draws : ∀ d ∈ l.draws, d.Fits
  cursor : l.cursor < longBound

/-- The ways to write a level, each entry and each draw in any way. -/
def Form (l : Level) (j : Json) : Prop :=
  ∃ entries draws, List.Forall₂ Entry.Form l.entries entries ∧
    List.Forall₂ Draw.Form l.draws draws ∧
    Record [("step", l.step.toJson), ("entries", .arr entries),
      ("selected", .option ThreadId.toJson l.selected), ("nondet", .arr draws),
      ("next_nondet", .nat l.cursor)] j

theorem form_toJson (l : Level) : l.Form l.toJson :=
  ⟨_, _, Json.forall₂_map Entry.form_toJson _, Json.forall₂_map Draw.form_toJson _,
    Json.record_obj _⟩

theorem reads {l : Level} {j : Json} (fits : l.Fits) (h : l.Form j) : Reads ofJson? l j := by
  obtain ⟨entries, draws, hentries, hdraws, hrecord⟩ := h
  have hentries := Json.reads_list hentries fun e he _ => Entry.reads (fits.entries e he)
  have hdraws := Draw.reads_list fits.draws hdraws
  refine ⟨hrecord.plain nodup_fieldNames rfl ?_, ?_⟩
  · simp [Step.plain_toJson, hentries.plain, Json.plain_option ThreadId.plain_toJson, hdraws.plain,
      Json.plain_nat]
  · obtain ⟨found, hfound, _ | ⟨atStep, _ | ⟨atEntries, _ | ⟨atSelected, _ | ⟨atDraws,
      _ | ⟨atCursor, _ | _⟩⟩⟩⟩⟩⟩ := hrecord.fields? nodup_fieldNames rfl
    have hselected := atSelected.optional (fun t ht => (ThreadId.reads (fits.selected t ht)).eq) rfl
    simp [ofJson?, hfound, atStep.step fits.step, atEntries.required hentries.eq rfl, hselected,
      atDraws.required hdraws.eq rfl, atCursor.nat fits.cursor]

end Level

namespace Config

theorem nodup_fieldNames : fieldNames.Nodup := by decide

structure Fits (c : Config) : Prop where
  seed : c.seed < longBound
  stepLimit : ∀ n ∈ c.stepLimit, n < longBound
  reversalLimit : ∀ n ∈ c.reversalLimit, n < longBound
  maxIterations : ∀ n ∈ c.maxIterations, n < longBound
  progressReport : c.progressReport < longBound

/-- The ways to write options. -/
def Form (c : Config) (j : Json) : Prop :=
  ∃ mode, Spelling c.mode.name mode ∧
    Record [("mode", mode), ("seed", .nat c.seed), ("sleep_sets", .bool c.sleepSets),
      ("dpor", .bool c.reduction), ("step_limit", .option Json.nat c.stepLimit),
      ("race_reversal_limit", .option Json.nat c.reversalLimit),
      ("max_iterations", .option Json.nat c.maxIterations),
      ("progress_report", .nat c.progressReport)] j

theorem form_toJson (c : Config) : c.Form c.toJson := ⟨_, .text, Json.record_obj _⟩

theorem reads {c : Config} {j : Json} (fits : c.Fits) (h : c.Form j) : Reads ofJson? c j := by
  obtain ⟨mode, hmode, hrecord⟩ := h
  have hmode := Mode.reads hmode
  refine ⟨hrecord.plain nodup_fieldNames rfl ?_, ?_⟩
  · simp [hmode.plain, Json.plain_nat, Json.Plain.bool, Json.plain_option Json.plain_nat]
  · obtain ⟨found, hfound, _ | ⟨atMode, _ | ⟨atSeed, _ | ⟨atSleep, _ | ⟨atReduction, _ | ⟨atSteps,
      _ | ⟨atReversals, _ | ⟨atIterations, _ | ⟨atReport, _ | _⟩⟩⟩⟩⟩⟩⟩⟩⟩ :=
      hrecord.fields? nodup_fieldNames rfl
    simp [ofJson?, hfound, atMode.required hmode.eq rfl, atSeed.nat fits.seed, atSleep.bool,
      atReduction.bool, atSteps.nats fits.stepLimit, atReversals.nats fits.reversalLimit,
      atIterations.nats fits.maxIterations, atReport.nat fits.progressReport]

end Config

namespace Directive

theorem nodup_fieldNames : fieldNames.Nodup := by decide

structure Fits (d : Directive) : Prop where
  thread : d.thread < wordBound
  draws : ∀ draw ∈ d.draws, draw.Fits

/-- The ways to write a directive, each draw in any way. -/
def Form (d : Directive) (j : Json) : Prop :=
  ∃ draws, List.Forall₂ Draw.Form d.draws draws ∧
    Record [("thread", d.thread.toJson), ("nondet_choices", .arr draws)] j

theorem form_toJson (d : Directive) : d.Form d.toJson :=
  ⟨_, Json.forall₂_map Draw.form_toJson _, Json.record_obj _⟩

theorem reads {d : Directive} {j : Json} (fits : d.Fits) (h : d.Form j) : Reads ofJson? d j := by
  obtain ⟨draws, hdraws, hrecord⟩ := h
  have hthread := ThreadId.reads fits.thread
  have hdraws := Draw.reads_list fits.draws hdraws
  refine ⟨hrecord.plain nodup_fieldNames rfl (by simp [hthread.plain, hdraws.plain]), ?_⟩
  obtain ⟨found, hfound, _ | ⟨atThread, _ | ⟨atDraws, _ | _⟩⟩⟩ :=
    hrecord.fields? nodup_fieldNames rfl
  simp [ofJson?, hfound, atThread.required hthread.eq rfl, atDraws.required hdraws.eq rfl]

end Directive

namespace Race

theorem nodup_fieldNames : fieldNames.Nodup := by decide

structure Fits (race : Race) : Prop where
  earlier : race.earlier < wordBound
  later : race.later < wordBound

/-- The ways to write a race. -/
def Form (race : Race) : Json → Prop :=
  Record [("earlier", race.earlier.toJson), ("later", race.later.toJson)]

theorem form_toJson (race : Race) : race.Form race.toJson := Json.record_obj _

theorem reads {race : Race} {j : Json} (fits : race.Fits) (h : race.Form j) :
    Reads ofJson? race j := by
  refine ⟨h.plain nodup_fieldNames rfl (by simp [Step.plain_toJson]), ?_⟩
  obtain ⟨found, hfound, _ | ⟨atEarlier, _ | ⟨atLater, _ | _⟩⟩⟩ := h.fields? nodup_fieldNames rfl
  simp [ofJson?, hfound, atEarlier.step fits.earlier, atLater.step fits.later]

end Race

namespace Event

theorem nodup_fieldNames : fieldNames.Nodup := by decide

structure Fits (e : Event) : Prop where
  thread : e.thread < wordBound
  index : e.index < wordBound

/-- The ways to write an event. -/
def Form (e : Event) : Json → Prop :=
  Record [("thread", e.thread.toJson), ("index", e.index.toJson)]

theorem form_toJson (e : Event) : e.Form e.toJson := Json.record_obj _

theorem reads {e : Event} {j : Json} (fits : e.Fits) (h : e.Form j) : Reads ofJson? e j := by
  have hthread := ThreadId.reads fits.thread
  refine ⟨h.plain nodup_fieldNames rfl (by simp [hthread.plain, Step.plain_toJson]), ?_⟩
  obtain ⟨found, hfound, _ | ⟨atThread, _ | ⟨atIndex, _ | _⟩⟩⟩ := h.fields? nodup_fieldNames rfl
  simp [ofJson?, hfound, atThread.required hthread.eq rfl, atIndex.step fits.index]

end Event

/-! ## All values -/

open Json (Lossless lossless_of_reads)

/-- No written form loses anything of a level, of options, a directive, a race, an event, an entry
or what a thread is about to do, if the numbers in it have their bits. What is written for a value
is one of its forms, and the value is read from all of its forms and from their texts: objects with
the fields in any order and lists of the fields, with forms of any kind for the parts. -/
theorem forms_lossless :
    (∀ l : Level, l.Fits → Lossless Level.toJson Level.ofJson? Level.Form l) ∧
    (∀ c : Config, c.Fits → Lossless Config.toJson Config.ofJson? Config.Form c) ∧
    (∀ d : Directive, d.Fits → Lossless Directive.toJson Directive.ofJson? Directive.Form d) ∧
    (∀ race : Race, race.Fits → Lossless Race.toJson Race.ofJson? Race.Form race) ∧
    (∀ e : Event, e.Fits → Lossless Event.toJson Event.ofJson? Event.Form e) ∧
    (∀ e : Entry, e.toPending.Fits → Lossless Entry.toJson Entry.ofJson? Entry.Form e) ∧
    (∀ p : Pending, p.Fits → Lossless Pending.toJson Pending.ofJson? Pending.Form p) :=
  ⟨fun l fits => lossless_of_reads l.form_toJson fun _ => Level.reads fits,
    fun c fits => lossless_of_reads c.form_toJson fun _ => Config.reads fits,
    fun d fits => lossless_of_reads d.form_toJson fun _ => Directive.reads fits,
    fun race fits => lossless_of_reads race.form_toJson fun _ => Race.reads fits,
    fun e fits => lossless_of_reads e.form_toJson fun _ => Event.reads fits,
    fun e fits => lossless_of_reads e.form_toJson fun _ => Entry.reads fits,
    fun p fits => lossless_of_reads p.form_toJson fun _ => Pending.reads fits⟩

/-- A thread that sends. -/
def sending : Pending where
  thread := 0
  enabled := true
  op := .send
  kind := .inbox
  target := some 5

/-- A level at which it is selected and draws a number. -/
def drawn : Level where
  step := 3
  entries := [Entry.capture sending]
  selected := some 0
  draws := [.ofNat 17]
  cursor := 1

theorem fits_sending : sending.Fits := by
  refine ⟨by decide, ?_, ?_⟩ <;> rintro n ⟨⟩
  decide

theorem fits_drawn : drawn.Fits := by
  refine ⟨by decide, ?_, ?_, ?_, by decide⟩
  · simpa [drawn] using fits_sending
  · rintro t ⟨⟩
    decide
  · simp [drawn, Draw.Fits, Draw.ofNat, wordBound]

/-- The keys of the level in the reverse order, its entry as a list, and the kind of its draw as an
object. -/
def drawnForm : Json :=
  .obj [("step", .nat 3),
    ("entries", .arr [.arr [.str "t0", .bool true, .bool false, .bool false, .str "Send",
      .str "Inbox", .nat 5, .null]]),
    ("selected", .str "t0"),
    ("nondet", .arr [.arr [.obj [("Int", .null)], .nat 17]]),
    ("next_nondet", .nat 1)].reverse

theorem form_drawnForm : drawn.Form drawnForm :=
  ⟨_, _, .cons ⟨_, _, .text, .text, .array⟩ .nil, .cons ⟨_, .object, .array⟩ .nil,
    Json.record_of_perm (List.reverse_perm _)⟩

theorem forms_lossless_of_drawn :
    Level.ofJson? drawnForm = some drawn ∧
    (Json.read? drawnForm.render).bind Level.ofJson? = some drawn ∧
    (Json.read? drawn.toJson.render).bind Level.ofJson? = some drawn ∧
    Lossless Config.toJson Config.ofJson? Config.Form default ∧
    Lossless Directive.toJson Directive.ofJson? Directive.Form ⟨0, [.ofNat 17]⟩ ∧
    Lossless Race.toJson Race.ofJson? Race.Form ⟨1, 2⟩ ∧
    Lossless Event.toJson Event.ofJson? Event.Form ⟨0, 1⟩ ∧
    Lossless Entry.toJson Entry.ofJson? Entry.Form (Entry.capture sending) ∧
    Lossless Pending.toJson Pending.ofJson? Pending.Form sending := by
  obtain ⟨level, config, directive, race, event, entry, pending⟩ := forms_lossless
  have hlevel := level drawn fits_drawn
  refine ⟨hlevel.form _ form_drawnForm, hlevel.text _ form_drawnForm, hlevel.text _ hlevel.written,
    config default ⟨by decide, ?_, ?_, ?_, by decide⟩, directive _ ⟨by decide, ?_⟩,
    race _ ⟨by decide, by decide⟩, event _ ⟨by decide, by decide⟩, entry _ fits_sending,
    pending _ fits_sending⟩
  · rintro n ⟨⟩
  · rintro n ⟨⟩
  · rintro n ⟨⟩
  · simp [Draw.Fits, Draw.ofNat, wordBound]

end Interleaving
