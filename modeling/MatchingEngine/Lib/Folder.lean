import Mathlib.Data.Option.Basic
import Mathlib.Logic.Function.Basic

/-!
# Folders that may crash

A `Folder ν β` is a directory whose entries a reader sees under their names, and that may go back, by a crash, to entries it has had since
it was last synchronised. `Holds` is what a reader may find under a name, before or after a crash: the content of an entry that was
synchronised is found as it is, and of one that was not anything may be found.
-/

/-- A file: what a reader sees of it, and whether that was synchronised. -/
structure Folder.File (β : Type) where
  content : List β
  synced : Bool
  deriving DecidableEq, Repr

/-- A directory: the entries a reader sees, and those that a crash may bring back. -/
structure Folder (ν β : Type) where
  shown : ν → Option (Folder.File β)
  stale : ν → List (Option (Folder.File β))

namespace Folder

open Function

variable {ν β : Type} [DecidableEq ν]

/-- What a reader may find of a file. -/
def File.Shows (file : File β) (content : List β) : Prop := file.synced = true → content = file.content

/-- What a reader may find under a name, before or after a crash; `none` is that there is no file. -/
def Holds (f : Folder ν β) (name : ν) (content : Option (List β)) : Prop :=
  ∃ entry ∈ f.shown name :: f.stale name, Option.Rel File.Shows entry content

/-! ## Operations -/

/-- Another entry under a name. -/
def put (name : ν) (entry : Option (File β)) (f : Folder ν β) : Folder ν β where
  shown := update f.shown name entry
  stale := update f.stale name (f.shown name :: f.stale name)

/-- A new file, empty. -/
def create (name : ν) : Folder ν β → Folder ν β := put name (some ⟨[], false⟩)

/-- The entry is removed. -/
def remove (name : ν) : Folder ν β → Folder ν β := put name none

/-- The entry `source` replaces `target` at once. -/
def rename (source target : ν) (f : Folder ν β) : Folder ν β := put source none (put target (f.shown source) f)

/-- A file is changed under its entry. -/
def modify (name : ν) (change : File β → File β) (f : Folder ν β) : Folder ν β :=
  { f with shown := update f.shown name ((f.shown name).map change) }

/-- More at the end of a file. -/
def append (name : ν) (bytes : List β) : Folder ν β → Folder ν β := modify name fun file => ⟨file.content ++ bytes, false⟩

/-- The content of a file is synchronised. -/
def syncFile (name : ν) : Folder ν β → Folder ν β := modify name fun file => { file with synced := true }

/-- The entries are synchronised. -/
def sync (f : Folder ν β) : Folder ν β := { f with stale := fun _ => [] }

/-! ## Names that an operation leaves alone -/

/-- Under `name` nothing has changed. -/
structure Unchanged (name : ν) (f g : Folder ν β) : Prop where
  shown : g.shown name = f.shown name
  stale : g.stale name = f.stale name

variable {f g h : Folder ν β} {name other : ν} {content : Option (List β)}

namespace Unchanged

omit [DecidableEq ν] in
theorem refl (name : ν) (f : Folder ν β) : Unchanged name f f := ⟨rfl, rfl⟩

omit [DecidableEq ν] in
theorem trans (hfg : Unchanged name f g) (hgh : Unchanged name g h) : Unchanged name f h :=
  ⟨hgh.shown.trans hfg.shown, hgh.stale.trans hfg.stale⟩

omit [DecidableEq ν] in
/-- An unchanged name holds what it held. -/
theorem holds_iff (hfg : Unchanged name f g) : g.Holds name content ↔ f.Holds name content := by
  rw [Holds, Holds, hfg.shown, hfg.stale]

/-- Another name is put in place. -/
theorem put (hne : name ≠ other) (entry : Option (File β)) (f : Folder ν β) : Unchanged name f (f.put other entry) :=
  ⟨update_of_ne hne _ _, update_of_ne hne _ _⟩

/-- The file of another name changes. -/
theorem modify (hne : name ≠ other) (change : File β → File β) (f : Folder ν β) : Unchanged name f (f.modify other change) :=
  ⟨update_of_ne hne _ _, rfl⟩

end Unchanged

/-! ## What is found after an operation -/

/-- Appended bytes are shown, and not yet durable. -/
theorem append_shown {file : File β} (h : f.shown name = some file) (bytes : List β) :
    (f.append name bytes).shown name = some ⟨file.content ++ bytes, false⟩ :=
  (update_self _ _ _).trans (congrArg _ h)

theorem syncFile_shown {file : File β} (h : f.shown name = some file) :
    (f.syncFile name).shown name = some ⟨file.content, true⟩ :=
  (update_self _ _ _).trans (congrArg _ h)

/-- A file that is renamed is under its new name, and what was there may come back. -/
theorem rename_target (hne : name ≠ other) :
    (f.rename other name).shown name = f.shown other ∧ (f.rename other name).stale name = f.shown name :: f.stale name := by
  have hrest := Unchanged.put hne none (f.put name (f.shown other))
  exact ⟨hrest.shown.trans (update_self _ _ _), hrest.stale.trans (update_self _ _ _)⟩

omit [DecidableEq ν] in
/-- A file that is synchronised, under an entry that is: nothing else is found. -/
theorem holds_synced {bytes : List β} (hshown : f.shown name = some ⟨bytes, true⟩) (hstale : f.stale name = []) :
    f.Holds name content ↔ content = some bytes := by
  rw [Holds, hshown, hstale]
  constructor
  · rintro ⟨entry, hmem, hrel⟩
    rw [List.mem_singleton.mp hmem] at hrel
    cases hrel with
    | some hshows => exact congrArg some (hshows rfl)
  · intro hc
    subst hc
    exact ⟨_, List.mem_singleton.mpr rfl, .some fun _ => rfl⟩

omit [DecidableEq ν] in
/-- A file that is synchronised is found, or what was found before. -/
theorem holds_replaced {bytes : List β} (hshown : g.shown name = some ⟨bytes, true⟩)
    (hstale : g.stale name = f.shown name :: f.stale name) (h : g.Holds name content) :
    f.Holds name content ∨ content = some bytes := by
  obtain ⟨entry, hmem, hrel⟩ := h
  rw [hshown, hstale, List.mem_cons] at hmem
  rcases hmem with he | hmem
  · subst he
    cases hrel with
    | some hshows => exact .inr (congrArg some (hshows rfl))
  · exact .inl ⟨entry, hmem, hrel⟩

end Folder
