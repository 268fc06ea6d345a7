import MatchingEngine.Lib.Bytes

/-!
# Mapped files

A file that is written through a mapping and synchronised now and then. `now` is what the mapping shows, and `older` are the contents
it has shown since the last successful synchronisation, the latest first: the device may hold any mixture of them. After a crash a
byte that has not changed since that synchronisation is there, a unit (a span that is stored as a whole) is that of one of the
contents, and nothing is known about the other bytes (`Survives`).
-/

structure Mapped where
  now : Buffer
  older : List Buffer

namespace Mapped

variable {m : Mapped} {P : Buffer → Prop}

/-- A file whose content is on the device. -/
def settled (content : Buffer) : Mapped := ⟨content, []⟩

/-- The contents since the last successful synchronisation. -/
def versions (m : Mapped) : List Buffer := m.now :: m.older

/-- A write through the mapping. -/
def write (f : Buffer → Buffer) (m : Mapped) : Mapped := ⟨f m.now, m.versions⟩

/-- A synchronisation, successful or not. -/
def sync (ok : Bool) (m : Mapped) : Mapped := if ok then settled m.now else m

/-- What may be found after a crash; `units` are the offset and width of the spans that are stored as a whole. -/
structure Survives (units : List (Nat × Nat)) (m : Mapped) (image : Buffer) : Prop where
  clean : ∀ i, (∀ v ∈ m.versions, v i = m.now i) → image i = m.now i
  whole : ∀ u ∈ units, ∃ v ∈ m.versions, ∀ i < u.2, image (u.1 + i) = v (u.1 + i)

/-- What is seen now is one of the versions. -/
theorem now_mem_versions (m : Mapped) : m.now ∈ m.versions := List.mem_cons_self

@[simp] theorem settled_now (content : Buffer) : (settled content).now = content := rfl

@[simp] theorem forall_settled {content : Buffer} : (∀ v ∈ (settled content).versions, P v) ↔ P content := List.forall_mem_singleton

@[simp] theorem forall_write {f : Buffer → Buffer} : (∀ v ∈ (m.write f).versions, P v) ↔ P (f m.now) ∧ ∀ v ∈ m.versions, P v :=
  List.forall_mem_cons

/-- A write is seen at once. -/
@[simp] theorem write_now (f : Buffer → Buffer) (m : Mapped) : (m.write f).now = f m.now := rfl

/-- A sync changes nothing that is seen. -/
@[simp] theorem sync_now (ok : Bool) (m : Mapped) : (m.sync ok).now = m.now := by
  cases ok <;> rfl

/-- A sync that succeeds settles what is seen. -/
theorem sync_true (m : Mapped) : m.sync true = settled m.now := rfl

/-- What holds of every content still does after a synchronisation. -/
theorem forall_sync {ok : Bool} (h : ∀ v ∈ m.versions, P v) : ∀ v ∈ (m.sync ok).versions, P v := by
  cases ok with
  | false => exact h
  | true => exact forall_settled.mpr (h _ m.now_mem_versions)

/-- Nothing is lost of a file whose process stops but whose machine does not. -/
theorem survives_now (units : List (Nat × Nat)) (m : Mapped) : m.Survives units m.now :=
  ⟨fun _ _ => rfl, fun _ _ => ⟨m.now, m.now_mem_versions, fun _ _ => rfl⟩⟩

/-- A byte that every content has is found. -/
theorem Survives.eq {units : List (Nat × Nat)} {image : Buffer} (h : m.Survives units image) {i : Nat} {x : UInt8}
    (hx : ∀ v ∈ m.versions, v i = x) : image i = x := by
  have hnow := hx _ m.now_mem_versions
  rw [h.clean i fun v hv => (hx v hv).trans hnow.symm, hnow]

/-- A file whose content is on the device is found as it was. -/
theorem Survives.of_settled {units : List (Nat × Nat)} {content image : Buffer} (h : (settled content).Survives units image) :
    image = content :=
  funext fun _ => h.eq (forall_settled.mpr rfl)

end Mapped
