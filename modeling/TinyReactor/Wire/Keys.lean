import TinyReactor.Wire.JsonForm

/-!
# Every key of the form is required

Documents that come from the form of a task by deleting keys of the record and adding members of other keys, at the
top and in the two nested objects. The decoder looks up its own keys only, so what is added is not seen, and it looks
up every one of them, so what is deleted is missed.
-/

namespace TinyReactor.Wire

open Data

/-- Keys of a record that are deleted from its object, and members of other keys that are added to it. -/
structure Edit (keys : List String) where
  deleted : List String
  added : List (String × Json)
  deleted_subset : deleted ⊆ keys
  added_unrelated : ∀ entry ∈ added, entry.1 ∉ keys

def Edit.apply {keys : List String} (edit : Edit keys) : Json → Json
  | .object members =>
      .object (insertAll edit.added (members.filter fun member ↦ decide (member.1 ∉ edit.deleted)))
  | other => other

/-- Change the member of one key. -/
def Json.editMember (key : String) (f : Json → Json) : Json → Json
  | .object members =>
      .object (members.map fun member ↦ (member.1, if member.1 = key then f member.2 else member.2))
  | other => other

/-- The form of a task, edited in the two nested objects. -/
def nestedForm (task : Task) (required : Edit resourceKeys) (shard : Edit shardKeys) : Json :=
  ((toJson task).editMember "required" required.apply).editMember "shard" shard.apply

/-- The form of a task, edited in the nested objects and at the top. -/
def editedForm (task : Task) (top : Edit taskKeys) (required : Edit resourceKeys) (shard : Edit shardKeys) : Json :=
  top.apply (nestedForm task required shard)

/-- The reading throws an exception of the library. -/
def Throws {ρ : Type} (reading : Except Failure ρ) : Prop :=
  ∃ failure, reading = .error failure ∧ failure ≠ .undefined

/-- The behaviour of the reading is defined. -/
def Settles {ρ : Type} (reading : Except Failure ρ) : Prop := reading ≠ .error .undefined

theorem Throws.settles {ρ : Type} {reading : Except Failure ρ} (h : Throws reading) : Settles reading := by
  obtain ⟨failure, rfl, hne⟩ := h
  intro heq
  exact hne (Except.error.inj heq)

section

variable {ρ : Type} {readers : List (Reader ρ)} {j j' : Json} {keys : List String} {key : String}

theorem readAll_congr (h : ∀ reader ∈ readers, ∀ record, reader.read j record = reader.read j' record) (record : ρ) :
    readAll readers j record = readAll readers j' record := by
  induction readers generalizing record with
  | nil => rfl
  | cons reader readers ih =>
    rw [List.forall_mem_cons] at h
    rw [readAll, readAll, h.1 record, funext (ih h.2)]

/-- A statement that throws is reached, or one before it throws. -/
theorem readAll_throws (hsettles : ∀ reader ∈ readers, ∀ record, Settles (reader.read j record))
    (hthrows : ∃ reader ∈ readers, ∀ record, Throws (reader.read j record)) (record : ρ) :
    Throws (readAll readers j record) := by
  induction readers generalizing record with
  | nil =>
    obtain ⟨reader, hmem, -⟩ := hthrows
    cases hmem
  | cons reader readers ih =>
    rw [List.forall_mem_cons] at hsettles
    rw [readAll]
    cases hread : reader.read j record with
    | error failure => exact ⟨failure, rfl, fun hundefined ↦ hsettles.1 record (hundefined ▸ hread)⟩
    | ok next =>
      refine ih hsettles.2 ?_ next
      obtain ⟨thrower, hmem, hthrower⟩ := hthrows
      obtain rfl | hlater := List.mem_cons.mp hmem
      · obtain ⟨failure, hfailure, -⟩ := hthrower record
        cases hread.symm.trans hfailure
      · exact ⟨thrower, hlater, hthrower⟩

theorem Json.atKey_editMember (f : Json → Json) (other : String) :
    (j.editMember key f).atKey other = (j.atKey other).map fun value ↦ if other = key then f value else value := by
  cases j with
  | object members =>
    rw [editMember, atKey, atKey, lookup_map_key fun memberKey value ↦ if memberKey = key then f value else value]
    cases members.lookup other with
    | none => rfl
    | some value => rfl
  | _ => rfl

/-- An edit takes away the keys it deletes, and no other key of the record. -/
theorem Edit.atKey_apply (edit : Edit keys) (hkey : key ∈ keys) (members : List (String × Json)) :
    (edit.apply (.object members)).atKey key =
      if key ∈ edit.deleted then .error (Json.missingKey key)
      else (Json.object members).atKey key := by
  have hadded : ∀ entry ∈ edit.added, entry.1 ≠ key := by
    rintro entry hentry rfl
    exact edit.added_unrelated entry hentry hkey
  rw [apply, Json.atKey, lookup_insertAll_of_forall_ne hadded,
    lookup_filter_key fun memberKey ↦ decide (memberKey ∉ edit.deleted)]
  by_cases hdeleted : key ∈ edit.deleted
  · rw [if_pos hdeleted, if_neg (by simpa using hdeleted)]
    rfl
  · rw [if_neg hdeleted, if_pos (by simpa using hdeleted), Json.atKey]

theorem Reader.read_congr {reader : Reader ρ} (h : j.atKey reader.key = j'.atKey reader.key) (record : ρ) :
    reader.read j record = reader.read j' record := by
  rw [Reader.read, h, Reader.read]

variable (readers) (edit : Edit (readers.map Reader.key)) (members : List (String × Json))

theorem Edit.read_apply {reader : Reader ρ} (hmem : reader ∈ readers) (record : ρ) :
    (reader.key ∈ edit.deleted ∧ Throws (reader.read (edit.apply (.object members)) record)) ∨
      (reader.key ∉ edit.deleted ∧
        reader.read (edit.apply (.object members)) record = reader.read (.object members) record) := by
  have hat := edit.atKey_apply (List.mem_map_of_mem hmem) members
  by_cases hdeleted : reader.key ∈ edit.deleted
  · rw [if_pos hdeleted] at hat
    refine .inl ⟨hdeleted, Json.missingKey reader.key, ?_, by rintro ⟨⟩⟩
    rw [Reader.read, hat]
    rfl
  · rw [if_neg hdeleted] at hat
    exact .inr ⟨hdeleted, Reader.read_congr hat record⟩

theorem settles_of_accepts {reading : Except Failure ρ} (h : ∃ next, reading = .ok next) : Settles reading := by
  obtain ⟨next, rfl⟩ := h
  rintro ⟨⟩

theorem Edit.readAll_apply_of_nil (hdeleted : edit.deleted = []) (record : ρ) :
    readAll readers (edit.apply (.object members)) record = readAll readers (.object members) record := by
  refine readAll_congr (fun reader hmem record ↦ ?_) record
  obtain ⟨hkey, -⟩ | ⟨-, hread⟩ := edit.read_apply readers members hmem record
  · rw [hdeleted] at hkey
    cases hkey
  · exact hread

theorem Edit.readAll_apply_throws
    (hsettles : ∀ reader ∈ readers, ∀ record, Settles (reader.read (.object members) record))
    (hdeleted : edit.deleted ≠ []) (record : ρ) : Throws (readAll readers (edit.apply (.object members)) record) := by
  refine readAll_throws (fun reader hmem record ↦ ?_) ?_ record
  · obtain ⟨-, hthrows⟩ | ⟨-, hread⟩ := edit.read_apply readers members hmem record
    · exact hthrows.settles
    · rw [hread]
      exact hsettles reader hmem record
  · obtain ⟨key, hkey⟩ := List.exists_mem_of_ne_nil edit.deleted hdeleted
    obtain ⟨reader, hmem, rfl⟩ := List.mem_map.mp (edit.deleted_subset hkey)
    refine ⟨reader, hmem, fun record ↦ ?_⟩
    obtain ⟨-, hthrows⟩ | ⟨hnot, -⟩ := edit.read_apply readers members hmem record
    · exact hthrows
    · exact absurd hkey hnot

/-- Reading the form of a record that was edited: nothing changes if no key is deleted, and it throws otherwise. -/
theorem Edit.readAll_apply {restored : ρ → ρ} (h : Restores readers (.object members) restored) (record : ρ) :
    (edit.deleted = [] ∧ readAll readers (edit.apply (.object members)) record = .ok (restored record)) ∨
      (edit.deleted ≠ [] ∧ Throws (readAll readers (edit.apply (.object members)) record)) := by
  by_cases hdeleted : edit.deleted = []
  · refine .inl ⟨hdeleted, ?_⟩
    rw [edit.readAll_apply_of_nil readers members hdeleted, h.readAll]
  · refine .inr ⟨hdeleted, edit.readAll_apply_throws readers members (fun reader hmem record ↦ ?_) hdeleted record⟩
    exact settles_of_accepts (h.accepts hmem record)

/-- The same for a record that is nested in another one. -/
theorem Edit.read_nested {σ : Type} {get : σ → ρ} {set : σ → ρ → σ} {restored : ρ}
    (h : Restores readers (.object members) fun _ ↦ restored) (hat : j.atKey key = .ok (edit.apply (.object members)))
    (record : σ) :
    (edit.deleted = [] ∧ (Reader.nested key readers get set).read j record = .ok (set record restored)) ∨
      (edit.deleted ≠ [] ∧ Throws ((Reader.nested key readers get set).read j record)) := by
  have hread : (Reader.nested key readers get set).read j record =
      (readAll readers (edit.apply (.object members)) (get record)).map (set record) := by
    rw [Reader.read, show (Reader.nested key readers get set).key = key from rfl, hat]
    rfl
  rw [hread]
  obtain ⟨hnil, hok⟩ | ⟨hdeleted, failure, hfailure, hne⟩ := edit.readAll_apply readers members h (get record)
  · exact .inl ⟨hnil, congrArg (Except.map (set record)) hok⟩
  · exact .inr ⟨hdeleted, failure, congrArg (Except.map (set record)) hfailure, hne⟩

end

/-! ## All keys are required -/

section

variable (task : Task) (required : Edit resourceKeys) (shard : Edit shardKeys)

theorem atKey_nestedForm (key : String) :
    (nestedForm task required shard).atKey key = ((toJson task).atKey key).map fun value ↦
      if key = "shard" then shard.apply value else if key = "required" then required.apply value else value := by
  rw [nestedForm, Json.atKey_editMember, Json.atKey_editMember]
  cases (toJson task).atKey key with
  | error failure => rfl
  | ok value =>
    refine congrArg Except.ok ?_
    beta_reduce
    by_cases hshard : key = "shard"
    · subst hshard
      rfl
    · rw [if_neg hshard, if_neg hshard]

theorem read_requiredReader (record : Task) :
    (required.deleted = [] ∧ requiredReader.read (nestedForm task required shard) record =
        .ok { record with required := task.required }) ∨
      (required.deleted ≠ [] ∧ Throws (requiredReader.read (nestedForm task required shard) record)) := by
  have hform : (toJson task).atKey "required" = .ok (resourceToJson task.required) := atKey_toJson rfl
  have hat : (nestedForm task required shard).atKey "required" =
      .ok (required.apply (resourceToJson task.required)) := by
    rw [atKey_nestedForm, hform]
    rfl
  exact Edit.read_nested resourceReaders required _ (restores_resource task.required) hat record

theorem read_shardReader (record : Task) :
    (shard.deleted = [] ∧ shardReader.read (nestedForm task required shard) record =
        .ok { record with shard := task.shard }) ∨
      (shard.deleted ≠ [] ∧ Throws (shardReader.read (nestedForm task required shard) record)) := by
  have hform : (toJson task).atKey "shard" = .ok (shardToJson task.shard) := atKey_toJson rfl
  have hat : (nestedForm task required shard).atKey "shard" = .ok (shard.apply (shardToJson task.shard)) := by
    rw [atKey_nestedForm, hform]
    rfl
  exact Edit.read_nested shardReaders shard _ (restores_shard task.shard) hat record

/-- The other statements do not see the nested objects. -/
theorem read_nestedForm {reader : Reader Task} (hmem : reader ∈ taskReaders) :
    reader = requiredReader ∨ reader = shardReader ∨
      ∀ record, reader.read (nestedForm task required shard) record = reader.read (toJson task) record := by
  have hcases : ∀ reader ∈ taskReaders, reader = requiredReader ∨ reader = shardReader ∨
      (reader.key ≠ "shard" ∧ reader.key ≠ "required") := by
    simp only [taskReaders, List.forall_mem_cons, List.not_mem_nil, false_implies, implies_true, and_true]
    refine ⟨?_, ?_, ?_, ?_, ?_, ?_, .inl trivial, .inr (.inl trivial), ?_, ?_, ?_, ?_, ?_, ?_, ?_, ?_⟩ <;>
      exact .inr (.inr ⟨by decide, by decide⟩)
  obtain hrequired | hshard | ⟨hshard, hrequired⟩ := hcases reader hmem
  · exact .inl hrequired
  · exact .inr (.inl hshard)
  · refine .inr (.inr (Reader.read_congr ?_))
    rw [atKey_nestedForm]
    cases (toJson task).atKey reader.key with
    | error failure => rfl
    | ok value =>
      refine congrArg Except.ok ?_
      beta_reduce
      rw [if_neg hshard, if_neg hrequired]

theorem settles_nestedForm {reader : Reader Task} (hmem : reader ∈ taskReaders) (record : Task) :
    Settles (reader.read (nestedForm task required shard) record) := by
  obtain rfl | rfl | hsame := read_nestedForm task required shard hmem
  · obtain ⟨-, hok⟩ | ⟨-, hthrows⟩ := read_requiredReader task required shard record
    · exact settles_of_accepts ⟨_, hok⟩
    · exact hthrows.settles
  · obtain ⟨-, hok⟩ | ⟨-, hthrows⟩ := read_shardReader task required shard record
    · exact settles_of_accepts ⟨_, hok⟩
    · exact hthrows.settles
  · rw [hsame record]
    exact settles_of_accepts ((restores_task task).accepts hmem record)

theorem fromJson_nestedForm (hrequired : required.deleted = []) (hshard : shard.deleted = []) (target : Task) :
    fromJson (nestedForm task required shard) target = fromJson (toJson task) target := by
  refine readAll_congr (fun reader hmem record ↦ ?_) target
  obtain rfl | rfl | hsame := read_nestedForm task required shard hmem
  · obtain ⟨-, hok⟩ | ⟨hdeleted, -⟩ := read_requiredReader task required shard record
    · rw [hok, requiredReader, Reader.read_nested (restores_resource task.required).readAll (atKey_toJson rfl)]
    · exact absurd hrequired hdeleted
  · obtain ⟨-, hok⟩ | ⟨hdeleted, -⟩ := read_shardReader task required shard record
    · rw [hok, shardReader, Reader.read_nested (restores_shard task.shard).readAll (atKey_toJson rfl)]
    · exact absurd hshard hdeleted
  · exact hsame record

theorem fromJson_nestedForm_throws (hdeleted : required.deleted ≠ [] ∨ shard.deleted ≠ []) (target : Task) :
    Throws (fromJson (nestedForm task required shard) target) := by
  refine readAll_throws (fun reader hmem record ↦ settles_nestedForm task required shard hmem record) ?_ target
  rcases hdeleted with hrequired | hshard
  · refine ⟨requiredReader, by simp [taskReaders], fun record ↦ ?_⟩
    obtain ⟨hnil, -⟩ | ⟨-, hthrows⟩ := read_requiredReader task required shard record
    · exact absurd hnil hrequired
    · exact hthrows
  · refine ⟨shardReader, by simp [taskReaders], fun record ↦ ?_⟩
    obtain ⟨hnil, -⟩ | ⟨-, hthrows⟩ := read_shardReader task required shard record
    · exact absurd hnil hshard
    · exact hthrows

end

/-- The JSON form of a task restores it, members of other keys change nothing wherever they are added, and no key
of the form or of its nested objects may be missing. -/
theorem json_form_complete (task target : Task) (top : Edit taskKeys) (required : Edit resourceKeys)
    (shard : Edit shardKeys) :
    fromJson (toJson task) target = .ok { task with cancelled := target.cancelled } ∧
      (top.deleted = [] → required.deleted = [] → shard.deleted = [] →
        fromJson (editedForm task top required shard) target = .ok { task with cancelled := target.cancelled }) ∧
      (top.deleted ≠ [] ∨ required.deleted ≠ [] ∨ shard.deleted ≠ [] →
        Throws (fromJson (editedForm task top required shard) target)) := by
  have hform := (restores_task task).readAll target
  have hunchanged (htop : top.deleted = []) :
      fromJson (editedForm task top required shard) target = fromJson (nestedForm task required shard) target :=
    Edit.readAll_apply_of_nil taskReaders top _ htop target
  refine ⟨hform, ?_, fun hdeleted ↦ ?_⟩
  · intro htop hrequired hshard
    rw [hunchanged htop, fromJson_nestedForm task required shard hrequired hshard]
    exact hform
  · by_cases htop : top.deleted = []
    · rw [hunchanged htop]
      exact fromJson_nestedForm_throws task required shard (hdeleted.resolve_left fun hne ↦ hne htop) target
    · exact Edit.readAll_apply_throws taskReaders top _
        (fun reader hmem record ↦ settles_nestedForm task required shard hmem record) htop target

end TinyReactor.Wire
