import Rota.Proofs.IdText
import Rota.Proofs.InstantText
import Rota.Proofs.Layout
import Rota.Record.Layouts
import Mathlib.Data.List.Forall2
/-! Jobs, pipelines, results and transactions are read from their text as they were.
The text does not say how jobs are linked for a run, and a result that answers null reads like one
that answers nothing. -/
namespace Rota

namespace Record
open Json

variable {α : Type} {read : Reader α} {write : α → Json} {o : Option α}

/-! ### Fields of records -/

private theorem Field.keeps_optional (name : String)
    (each : ∀ v ∈ o, Restores read (write v) v ∧ write v ≠ .null) :
    (nullable name write read).Keeps o o ∧ (omittable name write read).Keeps o o := by
  cases o with
  | none => exact ⟨restores_null, rfl⟩
  | some v =>
    obtain ⟨restores, some_⟩ := each v rfl
    exact ⟨restores_some restores some_, restores_some restores some_⟩

private theorem restores_writeId (id : Id) : Restores readId (writeId id) id :=
  restores_readParsed (Id.parse?_text id)

private theorem restores_writeInstant (t : Instant) : Restores readInstant (writeInstant t) t := by
  refine restores_readParsed ?_
  rw [Instant.text, String.toList_ofList]
  exact Instant.ofLenient?_chars t

private theorem restores_writeStatus (s : Status) : Restores readStatus (writeStatus s) s := by
  refine restores_readVariant ?_
  cases s <;> rfl

namespace Field

private theorem keeps_id (name : String) (id : Id) :
    (Field.id name).Keeps id id := restores_writeId id

private theorem keeps_string (name s : String) :
    (Field.string name).Keeps s s := restores_readString s

private theorem keeps_flag (name : String) (b : Bool) :
    (Field.flag name).Keeps b b := restores_readBool b

private theorem keeps_nat32 (name : String) (n : UInt32) : (Field.nat32 name).Keeps n n :=
  restores_readUInt32 n

private theorem keeps_nat64 (name : String) (n : UInt64) : (Field.nat64 name).Keeps n n :=
  restores_readUInt64 n

private theorem keeps_status (s : Status) : Field.status.Keeps s s := restores_writeStatus s

private theorem keeps_instant (name : String) (t : Option Instant) :
    (Field.instant name).Keeps t t :=
  (keeps_optional name fun t _ => ⟨restores_writeInstant t, by simp [writeInstant]⟩).1

private theorem keeps_real (name : String) {x : Option Binary64}
    (readsBack : ∀ y ∈ x, y.ReadsBack) :
    (Field.real name).Keeps x x :=
  (keeps_optional name fun y member =>
    ⟨restores_readReal (readsBack y member), by simp [Json.real]⟩).1

private theorem keeps_note (name : String) (s : Option String) : (Field.note name).Keeps s s :=
  (keeps_optional name fun s _ => ⟨restores_readString s, by simp⟩).2

private theorem keeps_owner (name : String) (id : Option Id) :
    (omittable name writeId readId).Keeps id id :=
  (keeps_optional name fun id _ => ⟨restores_writeId id, by simp [writeId]⟩).2

private theorem keeps_params {ps : Params} (legible : LegibleFields ps) (normal : NormalFields ps) :
    Field.params.Keeps ps (normalFields ps) := restores_readMap legible normal

end Field

end Record

open Record Record.Field

/-! ### Records -/

theorem JobOptions.restores (o : JobOptions) : Restores layout.read (layout.write o) o :=
  Layout.restores (l := layout) (layout.toTuple o) (by decide)
    ⟨keeps_note _ _, keeps_flag _ _, trivial⟩

theorem PipelineOptions.restores (o : PipelineOptions) : Restores layout.read (layout.write o) o :=
  Layout.restores (l := layout) (layout.toTuple o) (by decide)
    ⟨keeps_note _ _, keeps_nat64 _ _, keeps_flag _ _, trivial⟩

/-- The parameters are the fields of an object, with values that can be written and read back. -/
structure Job.Readable (j : Job) : Prop where
  distinct : (j.taskParams.map (·.1)).Nodup
  legible : Json.LegibleFields j.taskParams
  normal : Json.NormalFields j.taskParams
  duration : ∀ x ∈ j.duration, x.ReadsBack

def Job.sorted (j : Job) : Job := { j with taskParams := Json.normalFields j.taskParams }

theorem Job.restores {j : Job} (readable : j.Readable) :
    Restores layout.read (layout.write j) j.sorted :=
  Layout.restores (l := layout) (layout.toTuple j.sorted) (by decide)
    ⟨keeps_id _ _, keeps_string _ _, keeps_note _ _, keeps_flag _ _, keeps_nat32 _ _,
      keeps_nat32 _ _, JobOptions.restores _, keeps_owner _ _, keeps_owner _ _, keeps_nat32 _ _,
      keeps_flag _ _, keeps_string _ _, keeps_params readable.legible readable.normal,
      keeps_nat64 _ _, keeps_status _, keeps_note _ _, keeps_instant _ _, keeps_instant _ _,
      keeps_instant _ _, keeps_instant _ _, keeps_instant _ _, keeps_real _ readable.duration,
      trivial⟩

/-- Sorting the parameters loses none of them. -/
theorem Job.Readable.sorted_perm {j : Job} (readable : j.Readable) :
    j.sorted.taskParams.Perm j.taskParams :=
  Json.normalFields_perm readable.distinct

structure Pipeline.Readable (p : Pipeline) : Prop where
  jobs : ∀ j ∈ p.jobs, j.Readable
  duration : ∀ x ∈ p.duration, x.ReadsBack

def Pipeline.sorted (p : Pipeline) : Pipeline := { p with jobs := p.jobs.map Job.sorted }

theorem Pipeline.restores {p : Pipeline} (readable : p.Readable) :
    Restores layout.read (layout.write p) p.sorted := by
  have jobs : Restores (readList Job.layout.read) (writeList Job.layout.write p.jobs)
      (p.jobs.map Job.sorted) := by
    refine restores_readList (List.forall₂_map_right_iff.mpr (List.forall₂_same.mpr ?_))
    exact fun j inside => Job.restores (readable.jobs j inside)
  exact Layout.restores (l := layout) (layout.toTuple p.sorted) (by decide)
    ⟨keeps_id _ _, keeps_string _ _, keeps_note _ _, keeps_flag _ _, PipelineOptions.restores _,
      jobs, keeps_status _, keeps_instant _ _, keeps_instant _ _, keeps_instant _ _,
      keeps_instant _ _, keeps_real _ readable.duration, trivial⟩

def JobResult.Readable (r : JobResult) : Prop := ∀ v ∈ r.metadata, v.Legible ∧ v.Normal

def JobResult.stripped (r : JobResult) : JobResult :=
  match r.metadata with
  | some .null => { r with metadata := none }
  | _ => r

theorem JobResult.restores {r : JobResult} (readable : r.Readable) :
    Restores layout.read (layout.write r) r.stripped := by
  have answer : (omittable "metadata" (fun v => v) readJson).Keeps r.metadata
      r.stripped.metadata := by
    unfold stripped
    split
    next null_ =>
      rw [null_]
      exact restores_null
    next other =>
      refine (keeps_optional "metadata" fun v member => ?_).2
      obtain ⟨legible, normal⟩ := readable v member
      refine ⟨restores_readJson legible normal, ?_⟩
      rintro rfl
      exact other member
  have same : r.stripped.jobId = r.jobId ∧ r.stripped.error = r.error := by
    unfold stripped
    split <;> exact ⟨rfl, rfl⟩
  refine Layout.restores (l := layout) (layout.toTuple r.stripped) (by decide)
    ⟨?_, answer, ?_, trivial⟩
  · rw [same.1]
    exact keeps_id _ _
  · rw [same.2]
    exact keeps_note _ _

theorem Transaction.restores {t : Transaction} (readable : ∀ x ∈ t.duration, x.ReadsBack) :
    Restores layout.read (layout.write t) t :=
  Layout.restores (l := layout) (layout.toTuple t) (by decide)
    ⟨keeps_id _ _, keeps_id _ _, keeps_owner _ _, keeps_string _ _, keeps_status _, keeps_note _ _,
      restores_writeInstant _, keeps_instant _ _, keeps_instant _ _, keeps_real _ readable, trivial⟩

/-! ### Texts -/

def Chain.text (c : Chain) : String := (Job.layout.write c.head).render

def Chain.ofText (s : String) : Except Fault Chain := (readText Job.layout.read s).map .single

def LinkedPipeline.text (l : LinkedPipeline) : String := (Pipeline.layout.write l.pipeline).render

def LinkedPipeline.ofText (s : String) : Except Fault LinkedPipeline :=
  (readText Pipeline.layout.read s).map .ofPipeline

/-- Nothing is lost in the text of a record, but that jobs are linked and that an answer is null. -/
theorem ofText_text :
    (∀ c : Chain, c.head.Readable → (Job.layout.write c.head).depth ≤ maxNesting →
      Chain.ofText c.text = .ok (.single c.head.sorted) ∧
        c.head.sorted.taskParams.Perm c.head.taskParams) ∧
    (∀ l : LinkedPipeline, l.pipeline.Readable →
      (Pipeline.layout.write l.pipeline).depth ≤ maxNesting →
      LinkedPipeline.ofText l.text = .ok (.ofPipeline l.pipeline.sorted) ∧
        ∀ j ∈ l.pipeline.jobs, j.sorted.taskParams.Perm j.taskParams) ∧
    (∀ r : JobResult, r.Readable → (JobResult.layout.write r).depth ≤ maxNesting →
      readText JobResult.layout.read (JobResult.layout.write r).render = .ok r.stripped) ∧
    (∀ t : Transaction, (∀ x ∈ t.duration, x.ReadsBack) →
      (Transaction.layout.write t).depth ≤ maxNesting →
      readText Transaction.layout.read (Transaction.layout.write t).render = .ok t) := by
  refine ⟨fun c readable flat => ⟨?_, readable.sorted_perm⟩, fun l readable flat => ⟨?_, ?_⟩,
    fun r readable flat => (JobResult.restores readable).readText flat,
    fun t readable flat => (Transaction.restores readable).readText flat⟩
  · rw [Chain.ofText, Chain.text, (Job.restores readable).readText flat]
    rfl
  · rw [LinkedPipeline.ofText, LinkedPipeline.text, (Pipeline.restores readable).readText flat]
    rfl
  · exact fun j inside => (readable.jobs j inside).sorted_perm

def Job.sample : Job :=
  { Job.new (.issued 0) "col\"lect" "echo" [("to", .array [.nat 1, .null]), ("from", .bool true)]
      (some Instant.epoch) with duration := some ⟨false, 3 * Nat.pow 2 1073⟩ }

theorem ofText_text_example :
    Chain.ofText (Chain.link .sample (.single .sample)).text = .ok (.single Job.sample.sorted) ∧
    LinkedPipeline.ofText (LinkedPipeline.mk (.new (.issued 1) "report" [.sample] none)
      [some (.single .sample)]).text =
        .ok (.ofPipeline (.new (.issued 1) "report" [Job.sample.sorted] none)) ∧
    readText JobResult.layout.read (JobResult.layout.write
      (.success (.issued 0) (some .null))).render = .ok (.success (.issued 0) none) ∧
    readText Transaction.layout.read (Transaction.layout.write
      (.ofJob (.issued 2) .sample .epoch)).render = .ok (.ofJob (.issued 2) .sample .epoch) := by
  have duration : ∀ x ∈ Job.sample.duration, x.ReadsBack := by
    rintro x ⟨⟩
    decide +kernel
  have job : Job.sample.Readable :=
    ⟨by decide, ⟨⟨⟨by decide, by decide⟩, trivial, trivial⟩, trivial, trivial⟩,
      ⟨⟨trivial, trivial, trivial⟩, trivial, trivial⟩, duration⟩
  refine ⟨(ofText_text.1 (.link .sample (.single .sample)) job (by decide +kernel)).1,
    (ofText_text.2.1 ⟨.new (.issued 1) "report" [.sample] none, _⟩ ⟨?_, by rintro x ⟨⟩⟩
      (by decide +kernel)).1,
    ofText_text.2.2.1 (.success (.issued 0) (some .null)) ?_ (by decide +kernel),
    ofText_text.2.2.2 (.ofJob (.issued 2) .sample .epoch) duration (by decide +kernel)⟩
  · intro j inside
    cases List.mem_singleton.mp inside
    exact job
  · rintro v ⟨⟩
    exact ⟨trivial, trivial⟩

end Rota
