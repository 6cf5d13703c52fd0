/-
A resident directory over any sequence of edits.

`Edit` lists the edits of a resident directory and the flush between them.  Names
of at most `maxName` bytes always fit an empty page, so no page outgrows its buffer,
every page reads back as it was encoded, and the index, the pages and the page table
agree.
-/
import BloomFS.Spec.Pages

namespace BloomFS
namespace Runs

open Dir Fs Spec
open Dir.Segment (Distinct)

/-- The longest name that fits a page of its own. -/
def maxName : Nat := 4082

inductive Edit where
  | add (name : String) (id : Nat)
  | del (name : String)
  | flush
  deriving Repr, DecidableEq

/-- Names fit a page, and ids are 64-bit words. -/
def Edit.Fits : Edit → Prop
  | .add name id => (Utf8.encode name).length ≤ maxName ∧ id < 2 ^ 64
  | .del name => (Utf8.encode name).length ≤ maxName
  | .flush => True

/-- A resident directory and its pages at the last flush. -/
structure Desk where
  dir : CachedDir
  flushed : List Page

namespace Desk

def empty (env : Env) (in_ : Inode) : Desk where
  dir :=
    { dir := Directory.new env, in_ := in_, pages := [], pageOf := ∅, dirty := [], lruTick := 0 }
  flushed := []

def edit (env : Env) (d : Desk) : Edit → Option Desk
  | .add name id => some { d with dir := (d.dir.add env name id).2 }
  | .del name => (d.dir.del env name).map fun r => { d with dir := r.2 }
  | .flush => some { dir := { d.dir with dirty := [] }, flushed := d.dir.pages }

def edits (env : Env) (d : Desk) (es : List Edit) : Option Desk := es.foldlM (edit env) d

end Desk

/-! ## Room on a page -/

theorem entryBytes_le {name : String} (h : (Utf8.encode name).length ≤ maxName) :
    pageUsed [] + entryBytes name ≤ dirPageSize := by
  have hsize : dirPageSize = 4096 := rfl
  have hmax : maxName = 4082 := rfl
  rw [pageUsed_nil, entryBytes, hsize]
  omega

theorem pageFor_room {pages : List (List DirEntry)} {need : Nat}
    (h : pageUsed [] + need ≤ dirPageSize) :
    ∀ l, (Work.pageFor pages need).2[(Work.pageFor pages need).1]? = some l →
      pageUsed l + need ≤ dirPageSize := by
  intro l hl
  unfold Work.pageFor at hl
  cases hf : pages.findIdx? (fun l => pageUsed l + need ≤ dirPageSize) with
  | some i =>
    obtain ⟨hlt, hroom, -⟩ := List.findIdx?_eq_some_iff_getElem.mp hf
    simp only [hf] at hl
    rw [List.getElem?_eq_getElem hlt] at hl
    cases hl
    simpa using hroom
  | none =>
    simp only [hf] at hl
    rw [List.getElem?_concat_length] at hl
    cases hl
    exact h

theorem mem_pageFor {pages : List (List DirEntry)} {need : Nat} {l : List DirEntry}
    (h : l ∈ (Work.pageFor pages need).2) : l ∈ pages ∨ l = [] := by
  unfold Work.pageFor at h
  split at h
  · exact .inl h
  · simpa using h

/-- Every page of a directory after an insertion has a property that the insertion
keeps. -/
theorem forall_add {P : List DirEntry → Prop} {w : Work} {name : String} {id : Nat}
    (hold : ∀ l ∈ w.pages, P l) (hnil : P [])
    (hnew : ∀ l, P l → (Work.pageFor w.pages (entryBytes name)).2[
      (Work.pageFor w.pages (entryBytes name)).1]? = some l → P (l ++ [⟨name, id⟩])) :
    ∀ l ∈ (w.add name id).pages, P l := by
  have hall : ∀ l ∈ (Work.pageFor w.pages (entryBytes name)).2, P l := by
    intro l hl
    rcases mem_pageFor hl with hl | rfl
    · exact hold l hl
    · exact hnil
  intro l hl
  obtain ⟨i, hi⟩ := List.mem_iff_getElem?.mp hl
  have hi : ((Work.pageFor w.pages (entryBytes name)).2.modify
      (Work.pageFor w.pages (entryBytes name)).1 (· ++ [⟨name, id⟩]))[i]? = some l := hi
  rw [List.getElem?_modify] at hi
  obtain ⟨l₀, hl₀, rfl⟩ := Option.map_eq_some_iff.mp hi
  by_cases hp : (Work.pageFor w.pages (entryBytes name)).1 = i
  · rw [if_pos hp]
    rw [← hp] at hl₀
    exact hnew l₀ (hall l₀ (List.mem_of_getElem? hl₀)) hl₀
  · rw [if_neg hp]
    exact hall l₀ (List.mem_of_getElem? hl₀)

/-- Every page after a removal is a page before it, possibly without one entry. -/
theorem forall_del {P : List DirEntry → Prop} {w : Work} {name : String}
    (hold : ∀ l ∈ w.pages, P l) (herase : ∀ l, P l → P (l.eraseP (·.name = name))) :
    ∀ l ∈ (w.del name).pages, P l := by
  intro l hl
  cases hidx : pageIdx w.pages name with
  | none =>
    rw [Work.del_of_none hidx] at hl
    exact hold l hl
  | some p =>
    rw [Work.del_of_some hidx] at hl
    obtain ⟨i, hi⟩ := List.mem_iff_getElem?.mp hl
    rw [List.getElem?_modify] at hi
    obtain ⟨l₀, hl₀, rfl⟩ := Option.map_eq_some_iff.mp hi
    split
    · exact herase l₀ (hold l₀ (List.mem_of_getElem? hl₀))
    · exact hold l₀ (List.mem_of_getElem? hl₀)

theorem pageUsed_eraseP_le (l : List DirEntry) (name : String) :
    pageUsed (l.eraseP (·.name = name)) ≤ pageUsed l := by
  have hsub : ((l.eraseP (·.name = name)).map fun e => entryBytes e.name).Sublist
      (l.map fun e => entryBytes e.name) := List.eraseP_sublist.map _
  exact Nat.add_le_add_left (hsub.sum_le_sum fun _ _ => Nat.zero_le _) 4

/-! ## Sequences of edits -/

variable {env : Env}

/-- The directory mirrors plain pages that fit, and the pages that are not marked
are as they were flushed. -/
structure Desk.Ready (env : Env) (d : Desk) (w : Work) : Prop where
  mirror : Mirror env d.dir w
  tracked : w.Tracked
  flushed : d.flushed = w.node.pages.map fun l => ⟨l, pageUsed l⟩
  fits : ∀ l ∈ w.pages, pageUsed l ≤ dirPageSize
  ids : ∀ l ∈ w.pages, ∀ e ∈ l, e.inode < 2 ^ 64

theorem ready_empty (env : Env) (in_ : Inode) : (Desk.empty env in_).Ready env ⟨{}, [], []⟩ where
  mirror := ⟨⟨rfl, Directory.new_holds env, fun _ => rfl⟩, rfl⟩
  tracked := Work.tracked_checkout {}
  flushed := rfl
  fits := by simp
  ids := by simp

namespace Desk.Ready

variable {d : Desk} {w : Work}

theorem add_present (h : d.Ready env w) {name : String} {old : Nat} (hf : w.find name = some old)
    (id : Nat) : (d.dir.add env name id).2 = d.dir := by
  have hmem := (Work.find_eq_some_iff h.mirror.resident.index.distinct).mp hf
  have hadd := h.mirror.resident.index.add_present hmem id
  unfold CachedDir.add
  rw [hadd]

theorem add (h : d.Ready env w) {name : String} (hf : w.find name = none) {id : Nat}
    (hn : (Utf8.encode name).length ≤ maxName) (hid : id < 2 ^ 64) :
    Desk.Ready env { d with dir := (d.dir.add env name id).2 } (w.add name id) where
  mirror := (h.mirror.add hf id).2
  tracked := h.tracked.add name id
  flushed := h.flushed
  fits := by
    apply forall_add h.fits (by decide)
    intro l _ hl
    rw [pageUsed_append]
    exact pageFor_room (entryBytes_le hn) l hl
  ids := by
    apply forall_add h.ids (by simp)
    intro l hl _ e he
    rcases List.mem_append.mp he with he | he
    · exact hl e he
    · rw [List.mem_singleton.mp he]
      exact hid

theorem del (h : d.Ready env w) (name : String) :
    ∃ b h', d.dir.del env name = some (b, h') ∧
      Desk.Ready env { d with dir := h' } (w.del name) := by
  obtain ⟨b, h', hdel, -, hmir⟩ := h.mirror.del name
  refine ⟨b, h', hdel, hmir, h.tracked.del name, ?_, ?_, ?_⟩
  · rw [Work.del_node]
    exact h.flushed
  · apply forall_del h.fits
    intro l hl
    exact (pageUsed_eraseP_le l name).trans hl
  · apply forall_del h.ids
    intro l hl e he
    exact hl e (List.mem_of_mem_eraseP he)

theorem flush (h : d.Ready env w) :
    Desk.Ready env { dir := { d.dir with dirty := [] }, flushed := d.dir.pages }
      ⟨{ w.node with pages := w.pages }, w.pages, []⟩ where
  mirror := ⟨⟨h.mirror.resident.same, h.mirror.resident.index, h.mirror.resident.pageOf⟩, rfl⟩
  tracked := Work.tracked_checkout { w.node with pages := w.pages }
  flushed := h.mirror.resident.same
  fits := h.fits
  ids := h.ids

theorem edit (h : d.Ready env w) {e : Edit} (he : e.Fits) :
    ∃ d' w', d.edit env e = some d' ∧ d'.Ready env w' := by
  cases e with
  | add name id =>
    cases hf : w.find name with
    | none => exact ⟨_, _, rfl, h.add hf he.1 he.2⟩
    | some old =>
      refine ⟨_, w, rfl, ?_⟩
      rw [h.add_present hf id]
      exact h
  | del name =>
    obtain ⟨b, h', hdel, hready⟩ := h.del name
    refine ⟨_, _, ?_, hready⟩
    show (d.dir.del env name).map _ = _
    rw [hdel]
    rfl
  | flush => exact ⟨_, _, rfl, h.flush⟩

end Desk.Ready

theorem edits_ready {es : List Edit} :
    ∀ {d : Desk} {w : Work}, d.Ready env w → (∀ e ∈ es, e.Fits) →
      ∃ d' w', d.edits env es = some d' ∧ d'.Ready env w' := by
  induction es with
  | nil =>
    intro d w h _
    exact ⟨d, w, rfl, h⟩
  | cons e es ih =>
    intro d w h hes
    obtain ⟨d₁, w₁, hedit, h₁⟩ := h.edit (hes e List.mem_cons_self)
    obtain ⟨d', w', hrun, h'⟩ := ih h₁ fun e' he' => hes e' (List.mem_cons_of_mem _ he')
    refine ⟨d', w', ?_, h'⟩
    unfold Desk.edits
    rw [List.foldlM_cons, hedit]
    exact hrun

/-- Every page of an edited directory is accounted to the byte, fits its buffer and
reads back; names are unique; the page table and the index say what the pages say;
and a page that differs from the last flush is marked. -/
theorem dir_pages_agree (env : Env) (in_ : Inode) (es : List Edit) (hes : ∀ e ∈ es, e.Fits) :
    ∃ d, (Desk.empty env in_).edits env es = some d ∧
      (∀ (p : Nat) (pg : Page), d.dir.pages[p]? = some pg →
        pg.used = 4 + (pg.entries.map fun e => 10 + (Utf8.encode e.name).length).sum ∧
        pg.used ≤ 4096 ∧
        ∃ b, encodeDirPage pg.entries = some b ∧ b.length = 4096 ∧
          decodeDirPage b = some (pg.entries, pg.used)) ∧
      ((d.dir.pages.flatMap (·.entries)).map (·.name)).Nodup ∧
      (∀ (name : String) (p : Nat), d.dir.pageOf.lookup name = some p ↔
        ∃ pg, d.dir.pages[p]? = some pg ∧ ∃ e ∈ pg.entries, e.name = name) ∧
      (∀ (name : String) (id : Nat), d.dir.dir.find env name = some id ↔
        ⟨name, id⟩ ∈ d.dir.pages.flatMap (·.entries)) ∧
      d.dir.dir.entries.Perm (d.dir.pages.flatMap (·.entries)) ∧
      ∀ p : Nat, d.dir.pages[p]?.map (·.entries) ≠ d.flushed[p]?.map (·.entries) →
        p ∈ d.dir.dirty := by
  obtain ⟨d, w, hrun, h⟩ := edits_ready (ready_empty env in_) hes
  have hres := h.mirror.resident
  have hpage : ∀ p : Nat, d.dir.pages[p]? = w.pages[p]?.map fun l => (⟨l, pageUsed l⟩ : Page) := by
    intro p
    rw [hres.same, List.getElem?_map]
  refine ⟨d, hrun, fun p pg hp => ?_, ?_, fun name p => ?_, fun name id => ?_, ?_, fun p hp => ?_⟩
  · rw [hpage] at hp
    obtain ⟨l, hl, rfl⟩ := Option.map_eq_some_iff.mp hp
    have hmem := List.mem_of_getElem? hl
    have hfit : pageUsed l ≤ 4096 := h.fits l hmem
    have henc : encodeDirPage l = some (pageBytes l) := by
      rw [encodeDirPage_eq, if_neg (Nat.not_lt.mpr (h.fits l hmem))]
    exact ⟨rfl, hfit, _, henc, length_encodeDirPage henc,
      decodeDirPage_encodeDirPage (h.ids l hmem) henc⟩
  · rw [hres.entries]
    exact hres.index.distinct
  · rw [hres.pageOf, pageIdx_eq_some_iff hres.index.distinct, hpage]
    simp [OnPage]
  · rw [hres.entries]
    exact hres.index.find_eq_some_iff
  · rw [hres.entries]
    exact hres.index.perm
  · by_contra hclean
    apply hp
    rw [h.mirror.dirty] at hclean
    rw [hpage, h.flushed, List.getElem?_map, h.tracked.clean p hclean]

/-- An entry put into freed room, with a flush in between. -/
theorem dir_pages_agree_reused : ∃ d, (Desk.empty Env.plain Inode.default).edits Env.plain
    [.add "a" 1, .add "b" 2, .flush, .del "a", .add "c" 3] = some d ∧
      ((d.dir.pages.flatMap (·.entries)).map (·.name)).Nodup := by
  have hes : ∀ e ∈ ([.add "a" 1, .add "b" 2, .flush, .del "a", .add "c" 3] : List Edit),
      e.Fits := by
    simp [Edit.Fits]
    decide
  obtain ⟨d, hrun, -, hnodup, -⟩ := dir_pages_agree Env.plain Inode.default _ hes
  exact ⟨d, hrun, hnodup⟩

end Runs
end BloomFS
