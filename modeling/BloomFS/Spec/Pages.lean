/-
Directory pages: how they are stored, and how a working directory mirrors them.

`Paged` says what the pages of a directory on disk satisfy.  `Resident h pages` ties
a resident directory to plain pages, and the edits of both sides correspond.
-/
import BloomFS.Spec.Machine

namespace BloomFS
namespace Spec

open Bytes Exec Dir Fs Store
open Dir.Segment (Distinct)

/-! ## Storing pages -/

theorem length_pageBytes {l : List DirEntry} (h : pageUsed l ≤ dirPageSize) :
    (pageBytes l).length = dirPageSize := by
  rw [pageBytes, List.length_append, length_pageBody, List.length_replicate]
  omega

theorem encodeDirPage_eq (l : List DirEntry) :
    encodeDirPage l = if dirPageSize < pageUsed l then none else some (pageBytes l) := rfl

theorem pageBytes_nil : pageBytes [] = List.replicate dirPageSize 0 := by
  have h : pageBody [] = List.replicate 4 0 := rfl
  rw [pageBytes, h, List.replicate_append_replicate]
  rfl

theorem pageUsed_nil : pageUsed [] = 4 := rfl

/-- What holds of the pages of a directory on disk. -/
structure Paged (pages : List (List DirEntry)) : Prop where
  distinct : Distinct pages.flatten
  fits : ∀ l ∈ pages, pageUsed l ≤ dirPageSize
  ids : ∀ l ∈ pages, ∀ e ∈ l, e.inode < 2 ^ 64

theorem paged_nil : Paged [] where
  distinct := List.nodup_nil
  fits := by simp
  ids := by simp

theorem length_dirBytes {pages : List (List DirEntry)} (h : ∀ l ∈ pages, pageUsed l ≤ dirPageSize) :
    (dirBytes pages).length = pages.length * dirPageSize :=
  length_flatMap_width fun l hl => length_pageBytes (h l hl)

theorem splitPages_dirBytes {pages : List (List DirEntry)}
    (h : ∀ l ∈ pages, pageUsed l ≤ dirPageSize) :
    splitPages (dirBytes pages) = pages.map pageBytes := by
  have hlen := length_dirBytes h
  have hpos : 0 < dirPageSize := by decide
  have hcount : divCeil (dirBytes pages).length dirPageSize = pages.length := by
    unfold divCeil
    rw [hlen]
    have h1 : dirPageSize = 4096 := rfl
    rw [h1]
    omega
  apply List.ext_getElem?
  intro i
  by_cases hi : i < pages.length
  · rw [splitPages, getElem?_splitRecords (by rw [hcount]; exact hi), List.getElem?_map,
      List.getElem?_eq_getElem hi]
    show some _ = some _
    congr 1
    exact slice_flatMap (fun l hl => length_pageBytes (h l hl)) hi
  · rw [List.getElem?_eq_none_iff.mpr, List.getElem?_eq_none_iff.mpr]
    · rw [List.length_map]
      omega
    · rw [splitPages, length_splitRecords, hcount]
      omega

theorem decodePages_dirBytes {pages : List (List DirEntry)} (h : Paged pages) :
    FS.decodePages (dirBytes pages) = .ok (pages.map fun l => ⟨l, pageUsed l⟩) := by
  have hdec : ∀ ps : List (List DirEntry), (∀ l ∈ ps, pageUsed l ≤ dirPageSize) →
      (∀ l ∈ ps, ∀ e ∈ l, e.inode < 2 ^ 64) →
      (ps.map pageBytes).mapM decodeDirPage = some (ps.map fun l => (l, pageUsed l)) := by
    intro ps
    induction ps with
    | nil => intros; rfl
    | cons l ps ih =>
      intro hf hid
      have hl : decodeDirPage (pageBytes l) = some (l, pageUsed l) := by
        refine decodeDirPage_encodeDirPage (hid l List.mem_cons_self) ?_
        rw [encodeDirPage_eq, if_neg (Nat.not_lt.mpr (hf l List.mem_cons_self))]
      rw [List.map_cons, List.mapM_cons, hl,
        ih (fun x hx => hf x (List.mem_cons_of_mem _ hx))
        (fun x hx => hid x (List.mem_cons_of_mem _ hx))]
      rfl
  unfold FS.decodePages
  rw [splitPages_dirBytes h.fits, hdec pages h.fits h.ids]
  show Except.ok _ = _
  rw [List.map_map]
  rfl

theorem dirBytes_append (a b : List (List DirEntry)) :
    dirBytes (a ++ b) = dirBytes a ++ dirBytes b :=
  List.flatMap_append

theorem dirBytes_replicate (n : Nat) :
    dirBytes (List.replicate n []) = List.replicate (n * dirPageSize) 0 := by
  induction n with
  | zero => rw [Nat.zero_mul]; rfl
  | succ n ih =>
    rw [List.replicate_succ, dirBytes, List.flatMap_cons, pageBytes_nil]
    show _ ++ dirBytes _ = _
    rw [ih, List.replicate_append_replicate, Nat.succ_mul, Nat.add_comm]

theorem dirBytes_set {pages : List (List DirEntry)} (h : ∀ l ∈ pages, pageUsed l ≤ dirPageSize)
    {p : Nat} (hp : p < pages.length) {c : List DirEntry} (hc : pageUsed c ≤ dirPageSize) :
    dirBytes (pages.set p c) = patch (dirBytes pages) (p * dirPageSize) (pageBytes c) := by
  induction pages generalizing p with
  | nil => exact absurd hp (Nat.not_lt_zero _)
  | cons l pages ih =>
    have hl := length_pageBytes (h l List.mem_cons_self)
    have hcl := length_pageBytes hc
    have ht : ∀ x ∈ pages, pageUsed x ≤ dirPageSize := fun x hx => h x (List.mem_cons_of_mem _ hx)
    cases p with
    | zero =>
      show pageBytes c ++ dirBytes pages = patch (pageBytes l ++ dirBytes pages) _ _
      rw [Nat.zero_mul, patch, List.take_zero, List.nil_append, Nat.zero_add, hcl,
        List.drop_append_of_le_length (by rw [hl]), List.drop_of_length_le (by rw [hl]),
        List.nil_append]
    | succ p =>
      have hp' : p < pages.length := by simpa using hp
      show pageBytes l ++ dirBytes (pages.set p c) = patch (pageBytes l ++ dirBytes pages) _ _
      have hmul : (p + 1) * dirPageSize = (pageBytes l).length + p * dirPageSize := by
        rw [Nat.succ_mul, hl, Nat.add_comm]
      rw [ih ht hp', hmul, patch, patch, Nat.add_assoc, List.take_length_add_append,
        List.drop_length_add_append, List.append_assoc, List.append_assoc, List.append_assoc]

theorem mem_putPage {pages : List (List DirEntry)} {p : Nat} {c l : List DirEntry}
    (h : l ∈ putPage pages p c) : l ∈ pages ∨ l = [] ∨ l = c := by
  unfold putPage at h
  rcases List.mem_or_eq_of_mem_set h with h | h
  · rcases List.mem_append.mp h with h | h
    · exact .inl h
    · exact .inr (.inl (List.eq_of_mem_replicate h))
  · exact .inr (.inr h)

theorem putPage_fits {pages : List (List DirEntry)} (h : ∀ l ∈ pages, pageUsed l ≤ dirPageSize)
    {p : Nat} {c : List DirEntry} (hc : pageUsed c ≤ dirPageSize) :
    ∀ l ∈ putPage pages p c, pageUsed l ≤ dirPageSize := by
  intro l hl
  rcases mem_putPage hl with hl | rfl | rfl
  · exact h l hl
  · decide
  · exact hc

theorem dirBytes_putPage {pages : List (List DirEntry)} (h : ∀ l ∈ pages, pageUsed l ≤ dirPageSize)
    (p : Nat) {c : List DirEntry} (hc : pageUsed c ≤ dirPageSize) :
    dirBytes (putPage pages p c) = overwrite (dirBytes pages) (p * dirPageSize) (pageBytes c) := by
  have hfit : ∀ l ∈ pages ++ List.replicate (p + 1 - pages.length) [],
      pageUsed l ≤ dirPageSize := by
    intro l hl
    rcases List.mem_append.mp hl with hl | hl
    · exact h l hl
    · rw [List.eq_of_mem_replicate hl]
      decide
  have hgap : p * dirPageSize + (pageBytes c).length - (dirBytes pages).length =
      (p + 1 - pages.length) * dirPageSize := by
    rw [length_pageBytes hc, length_dirBytes h, Nat.sub_mul, Nat.succ_mul]
  rw [putPage, dirBytes_set hfit (by simp; omega) hc, dirBytes_append,
    dirBytes_replicate, overwrite, hgap]

/-! ## Where a name lies -/

/-- Name `name` lies on page `i`. -/
def OnPage (pages : List (List DirEntry)) (name : String) (i : Nat) : Prop :=
  ∃ l, pages[i]? = some l ∧ ∃ e ∈ l, e.name = name

def pageIdx (pages : List (List DirEntry)) (name : String) : Option Nat :=
  pages.findIdx? (fun l => l.any (·.name = name))

theorem any_name_iff {l : List DirEntry} {name : String} :
    l.any (·.name = name) = true ↔ ∃ e ∈ l, e.name = name := by
  simp

theorem onPage_of_pageIdx {pages : List (List DirEntry)} {name : String} {i : Nat}
    (h : pageIdx pages name = some i) : OnPage pages name i := by
  obtain ⟨hlt, hp, -⟩ := List.findIdx?_eq_some_iff_getElem.mp h
  exact ⟨_, List.getElem?_eq_getElem hlt, any_name_iff.mp hp⟩

theorem pageIdx_isSome_iff {pages : List (List DirEntry)} {name : String} :
    (pageIdx pages name).isSome ↔ ∃ e ∈ pages.flatten, e.name = name := by
  rw [pageIdx, List.findIdx?_isSome, List.any_eq_true]
  constructor
  · rintro ⟨l, hl, h⟩
    obtain ⟨e, he, hn⟩ := any_name_iff.mp h
    exact ⟨e, List.mem_flatten.mpr ⟨l, hl, he⟩, hn⟩
  · rintro ⟨e, he, hn⟩
    obtain ⟨l, hl, he⟩ := List.mem_flatten.mp he
    exact ⟨l, hl, any_name_iff.mpr ⟨e, he, hn⟩⟩

theorem OnPage.unique {pages : List (List DirEntry)} (hd : Distinct pages.flatten) {name : String}
    {i j : Nat} (hi : OnPage pages name i) (hj : OnPage pages name j) : i = j := by
  unfold Dir.Segment.Distinct at hd
  rw [List.map_flatten, List.nodup_flatten] at hd
  obtain ⟨-, hpair⟩ := hd
  obtain ⟨l, hl, e, he, hn⟩ := hi
  obtain ⟨l', hl', e', he', hn'⟩ := hj
  obtain ⟨hil, rfl⟩ := List.getElem?_eq_some_iff.mp hl
  obtain ⟨hjl, rfl⟩ := List.getElem?_eq_some_iff.mp hl'
  rw [List.pairwise_map, List.pairwise_iff_getElem] at hpair
  have hmem : name ∈ pages[i].map (·.name) := List.mem_map.mpr ⟨e, he, hn⟩
  have hmem' : name ∈ pages[j].map (·.name) := List.mem_map.mpr ⟨e', he', hn'⟩
  rcases Nat.lt_trichotomy i j with h | h | h
  · exact (hpair i j hil hjl h hmem hmem').elim
  · exact h
  · exact (hpair j i hjl hil h hmem' hmem).elim

theorem pageIdx_eq_some_iff {pages : List (List DirEntry)} (hd : Distinct pages.flatten)
    {name : String} {i : Nat} : pageIdx pages name = some i ↔ OnPage pages name i := by
  refine ⟨onPage_of_pageIdx, fun h => ?_⟩
  have hsome : (pageIdx pages name).isSome := by
    obtain ⟨l, hl, e, he, hn⟩ := h
    exact pageIdx_isSome_iff.mpr ⟨e, List.mem_flatten.mpr ⟨l, List.mem_of_getElem? hl, he⟩, hn⟩
  obtain ⟨j, hj⟩ := Option.isSome_iff_exists.mp hsome
  rw [hj, (onPage_of_pageIdx hj).unique hd h]

/-! ## Resident directories -/

/-- A resident directory mirrors plain pages. -/
structure Resident (env : Env) (h : CachedDir) (pages : List (List DirEntry)) : Prop where
  same : h.pages = pages.map fun l => ⟨l, pageUsed l⟩
  index : Directory.Holds env h.dir pages.flatten
  pageOf : ∀ name, h.pageOf.lookup name = pageIdx pages name

section Resident

variable {env : Env} {h : CachedDir} {pages : List (List DirEntry)}

theorem Resident.entries (hr : Resident env h pages) :
    h.pages.flatMap (·.entries) = pages.flatten := by
  rw [hr.same, List.flatMap_map, List.flatMap_def, List.map_id']

theorem Resident.find (hr : Resident env h pages) (name : String) :
    h.dir.find env name = (pages.flatten.find? (·.name = name)).map (·.inode) := by
  cases hf : pages.flatten.find? (·.name = name) with
  | none =>
    rw [hr.index.find_eq_none_iff.mpr]
    · rfl
    · intro e he hn
      have := List.find?_eq_none.mp hf e he
      simp [hn] at this
  | some e =>
    have hn : e.name = name := by simpa using List.find?_some hf
    refine hr.index.find_eq_some_iff.mpr ?_
    rw [← hn]
    exact List.mem_of_find?_eq_some hf

theorem indexOf_holds {l : List DirEntry} (hd : Distinct l) :
    Directory.Holds env (indexOf env l) l := by
  have hloop : ∀ (todo done : List DirEntry) (d : Directory), Directory.Holds env d done →
      Distinct (done ++ todo) →
      Directory.Holds env (todo.foldl (fun d e => (d.add env e.name e.inode).2) d)
          (done ++ todo) := by
    intro todo
    induction todo with
    | nil =>
      intro done d h _
      rw [List.append_nil]
      exact h
    | cons e todo ih =>
      intro done d h hdist
      have hnew : ∀ x ∈ done, x.name ≠ e.name := by
        intro x hx hne
        unfold Dir.Segment.Distinct at hdist
        rw [List.map_append, List.map_cons, List.nodup_append] at hdist
        exact hdist.2.2 _ (List.mem_map_of_mem hx) _ List.mem_cons_self hne
      obtain ⟨d', hadd, hh⟩ := h.add hnew e.inode
      have hassoc : done ++ e :: todo = (done ++ [e]) ++ todo := List.append_cons _ _ _
      rw [List.foldl_cons, hadd, hassoc]
      refine ih (done ++ [e]) d' (hh.of_perm ?_) (hassoc ▸ hdist)
      exact (List.perm_append_singleton e done).symm
  have := hloop l [] (Directory.new env) (Directory.new_holds env) hd
  exact this

theorem lookup_foldl_insert (l : List DirEntry) (p : Nat) (m : AList (fun _ : String => Nat))
    (name : String) :
    (l.foldl (fun m e => m.insert e.name p) m).lookup name =
      if l.any (·.name = name) then some p else m.lookup name := by
  induction l generalizing m with
  | nil => rfl
  | cons e l ih =>
    rw [List.foldl_cons, ih, List.any_cons]
    by_cases hn : e.name = name
    · subst hn
      rw [AList.lookup_insert]
      simp
    · rw [AList.lookup_insert_ne (Ne.symm hn)]
      simp [hn]

theorem locate_lookup (hd : Distinct pages.flatten) (name : String) :
    (locate (pages.map fun l => ⟨l, pageUsed l⟩)).lookup name = pageIdx pages name := by
  have hloop : ∀ (ps : List (List DirEntry)) (k : Nat) (m : AList (fun _ : String => Nat)),
      Distinct ps.flatten →
      (((ps.map fun l => (⟨l, pageUsed l⟩ : Page)).zipIdx k).foldl
        (fun m x => x.1.entries.foldl (fun m e => m.insert e.name x.2) m) m).lookup name =
      (pageIdx ps name).elim (m.lookup name) (fun i => some (k + i)) := by
    intro ps
    induction ps with
    | nil => intros; rfl
    | cons l ps ih =>
      intro k m hdist
      have htail : Distinct ps.flatten := by
        unfold Dir.Segment.Distinct at hdist ⊢
        rw [List.flatten_cons, List.map_append] at hdist
        exact hdist.of_append_right
      rw [List.map_cons, List.zipIdx_cons, List.foldl_cons, ih (k + 1) _ htail,
        lookup_foldl_insert]
      by_cases hin : l.any (·.name = name) = true
      · have hnone : pageIdx ps name = none := by
          by_contra hne
          have hsome := Option.isSome_iff_ne_none.mpr hne
          obtain ⟨e', he', hn'⟩ := pageIdx_isSome_iff.mp hsome
          obtain ⟨e, he, hn⟩ := any_name_iff.mp hin
          unfold Dir.Segment.Distinct at hdist
          rw [List.flatten_cons, List.map_append, List.nodup_append] at hdist
          exact hdist.2.2 _ (List.mem_map_of_mem he) _ (List.mem_map_of_mem he') (hn.trans hn'.symm)
        rw [hnone]
        simp only [pageIdx, List.findIdx?_cons, hin, if_true]
        rfl
      · simp only [pageIdx, List.findIdx?_cons, hin]
        cases List.findIdx? (fun l => l.any (·.name = name)) ps with
        | none => rfl
        | some i =>
          show some (k + 1 + i) = some (k + (i + 1))
          congr 1
          omega
  have := hloop pages 0 ∅ hd
  unfold locate
  rw [this]
  cases pageIdx pages name with
  | none => rfl
  | some i => exact congrArg some (Nat.zero_add i)

end Resident

/-! ## Edits -/

section Edits

variable {env : Env} {h : CachedDir} {w : Work}

/-- The handle of a directory and the working copy of the machine. -/
structure Mirror (env : Env) (h : CachedDir) (w : Work) : Prop where
  resident : Resident env h w.pages
  dirty : h.dirty = w.dirty

theorem Mirror.find (hm : Mirror env h w) (name : String) : h.dir.find env name = w.find name :=
  hm.resident.find name

theorem Work.find_eq_none_iff {w : Work} {name : String} :
    w.find name = none ↔ ∀ e ∈ w.entries, e.name ≠ name := by
  rw [Work.find, Option.map_eq_none_iff, List.find?_eq_none]
  simp

theorem Mirror.marked (hm : Mirror env h w) (p : Nat) : h.marked p = w.marked p := by
  unfold CachedDir.marked Work.marked
  rw [hm.dirty]

theorem flatten_modify_append {pages : List (List DirEntry)} {p : Nat} (hp : p < pages.length)
    (e : DirEntry) : (e :: pages.flatten).Perm (pages.modify p (· ++ [e])).flatten := by
  induction pages generalizing p with
  | nil => exact absurd hp (Nat.not_lt_zero _)
  | cons l pages ih =>
    cases p with
    | zero =>
      rw [List.modify_zero_cons, List.flatten_cons, List.flatten_cons, List.append_assoc]
      exact List.perm_middle.symm
    | succ p =>
      rw [List.modify_succ_cons, List.flatten_cons, List.flatten_cons]
      refine List.Perm.trans ?_ ((ih (by simpa using hp)).append_left l)
      exact List.perm_middle.symm

theorem onPage_modify_append {pages : List (List DirEntry)} {p i : Nat} {e : DirEntry}
    {name : String} (hp : p < pages.length) :
    OnPage (pages.modify p (· ++ [e])) name i ↔ OnPage pages name i ∨ i = p ∧ e.name = name := by
  unfold OnPage
  rw [List.getElem?_modify]
  by_cases hi : p = i
  · subst hi
    rw [List.getElem?_eq_getElem hp]
    simp only [if_true, Option.map_eq_map, Option.map_some, Option.some.injEq, exists_eq_left',
      List.mem_append, List.mem_singleton, true_and]
    constructor
    · rintro ⟨x, hx | rfl, hn⟩
      · exact .inl ⟨x, hx, hn⟩
      · exact .inr hn
    · rintro (⟨x, hx, hn⟩ | hn)
      · exact ⟨x, .inl hx, hn⟩
      · exact ⟨e, .inr rfl, hn⟩
  · have hne : ¬ (i = p ∧ e.name = name) := fun h => hi h.1.symm
    simp only [hi, if_false, or_iff_left hne, Option.map_eq_map]
    cases pages[i]? <;> simp

theorem pageFor_spec (pages : List (List DirEntry)) (need : Nat) :
    ∃ p pages', Work.pageFor pages need = (p, pages') ∧ p < pages'.length ∧
      (pages' = pages ∨ pages' = pages ++ [[]]) ∧
      CachedDir.pageFor (pages.map fun l => ⟨l, pageUsed l⟩) need =
        (p, pages'.map fun l => ⟨l, pageUsed l⟩) := by
  have hidx : (pages.map fun l => (⟨l, pageUsed l⟩ : Page)).findIdx?
      (fun pg => pg.used + need ≤ dirPageSize) =
      pages.findIdx? (fun l => pageUsed l + need ≤ dirPageSize) := by
    rw [List.findIdx?_map]
    rfl
  unfold Work.pageFor CachedDir.pageFor
  rw [hidx]
  cases hf : pages.findIdx? (fun l => pageUsed l + need ≤ dirPageSize) with
  | some i =>
    obtain ⟨hlt, -⟩ := List.findIdx?_eq_some_iff_getElem.mp hf
    exact ⟨i, pages, rfl, hlt, .inl rfl, rfl⟩
  | none =>
    refine ⟨pages.length, pages ++ [[]], rfl, by simp, .inr rfl, ?_⟩
    simp [pageUsed_nil]

theorem flatten_append_nil (pages : List (List DirEntry)) :
    (pages ++ [[]]).flatten = pages.flatten := by
  simp

theorem onPage_append_nil {pages : List (List DirEntry)} {name : String} {i : Nat} :
    OnPage (pages ++ [[]]) name i ↔ OnPage pages name i := by
  unfold OnPage
  by_cases hi : i < pages.length
  · rw [List.getElem?_append_left hi]
  · rw [List.getElem?_append_right (by omega),
      List.getElem?_eq_none_iff.mpr (show pages.length ≤ i by omega)]
    constructor
    · rintro ⟨l, hl, e, he, -⟩
      obtain rfl : l = [] := by
        have := List.mem_of_getElem? hl
        simpa using this
      cases he
    · rintro ⟨l, hl, -⟩
      cases hl

theorem pageUsed_append (l : List DirEntry) (e : DirEntry) :
    pageUsed (l ++ [e]) = pageUsed l + entryBytes e.name := by
  simp [pageUsed]
  omega

theorem map_modify_page {α β : Type} (f : α → β) (g : α → α) (g' : β → β)
    (h : ∀ a, f (g a) = g' (f a)) (l : List α) (p : Nat) :
    (l.modify p g).map f = (l.map f).modify p g' := by
  apply List.ext_getElem?
  intro i
  rw [List.getElem?_map, List.getElem?_modify, List.getElem?_modify, List.getElem?_map]
  by_cases hi : p = i
  · simp only [hi, if_true, Option.map_eq_map, Option.map_map]
    congr 1
    funext a
    exact h a
  · simp only [hi, if_false, Option.map_eq_map, Option.map_map]
    congr 1

theorem Mirror.add (hm : Mirror env h w) {name : String} (hnew : w.find name = none) (id : Nat) :
    (h.add env name id).2.in_ = h.in_ ∧ Mirror env (h.add env name id).2 (w.add name id) := by
  have hr := hm.resident
  have habs : ∀ e ∈ w.pages.flatten, e.name ≠ name := Work.find_eq_none_iff.mp hnew
  obtain ⟨d', hadd, hholds⟩ := hr.index.add habs id
  obtain ⟨p, pages', hfor, hp, hpages', hcfor⟩ := pageFor_spec w.pages (entryBytes name)
  rw [← hr.same] at hcfor
  have hflat : pages'.flatten = w.pages.flatten := by
    rcases hpages' with rfl | rfl
    · rfl
    · exact flatten_append_nil _
  have hon : ∀ n i, OnPage pages' n i ↔ OnPage w.pages n i := by
    intro n i
    rcases hpages' with rfl | rfl
    · rfl
    · exact onPage_append_nil
  have hw : w.add name id =
      { w with pages := pages'.modify p (· ++ [⟨name, id⟩]), dirty := w.marked p } := by
    unfold Work.add
    rw [hfor]
  have hh : (h.add env name id).2 = { h with
      dir := d'
      pages := (pages'.map fun l => (⟨l, pageUsed l⟩ : Page)).modify p
        fun pg => ⟨pg.entries ++ [⟨name, id⟩], pg.used + entryBytes name⟩
      pageOf := h.pageOf.insert name p
      dirty := h.marked p } := by
    unfold CachedDir.add
    simp only [hadd, hcfor]
  have hperm := flatten_modify_append hp ⟨name, id⟩
  rw [hflat] at hperm
  have hholds' := hholds.of_perm hperm
  rw [hh, hw]
  refine ⟨rfl, ⟨?_, hholds', fun n => ?_⟩, hm.marked p⟩
  · symm
    exact map_modify_page _ _ _ (fun l => by rw [pageUsed_append]) _ _
  · show (h.pageOf.insert name p).lookup n = _
    apply Option.ext
    intro i
    rw [pageIdx_eq_some_iff hholds'.distinct, onPage_modify_append hp, hon]
    by_cases hn : n = name
    · subst hn
      rw [AList.lookup_insert]
      constructor
      · rintro ⟨⟩
        exact .inr ⟨rfl, rfl⟩
      · rintro (⟨l, hl, e, he, hne⟩ | ⟨rfl, -⟩)
        · exact absurd hne (habs e (List.mem_flatten.mpr ⟨l, List.mem_of_getElem? hl, he⟩))
        · rfl
    · rw [AList.lookup_insert_ne hn, hr.pageOf, pageIdx_eq_some_iff hr.index.distinct,
        or_iff_left (fun h => hn h.2.symm)]

theorem flatten_modify_eraseP {pages : List (List DirEntry)} {name : String} {p : Nat}
    (h : pageIdx pages name = some p) :
    (pages.modify p (·.eraseP (·.name = name))).flatten = pages.flatten.eraseP (·.name = name) := by
  induction pages generalizing p with
  | nil => cases h
  | cons l pages ih =>
    unfold pageIdx at h
    rw [List.findIdx?_cons] at h
    by_cases hin : l.any (·.name = name) = true
    · rw [if_pos hin] at h
      cases h
      rw [List.modify_zero_cons, List.flatten_cons, List.flatten_cons]
      obtain ⟨e, he, hn⟩ := any_name_iff.mp hin
      exact (List.eraseP_append_left (a := e) (by simpa using hn) pages.flatten he).symm
    · rw [if_neg hin] at h
      obtain ⟨q, hq, rfl⟩ := Option.map_eq_some_iff.mp h
      rw [List.modify_succ_cons, List.flatten_cons, List.flatten_cons, ih hq]
      refine (List.eraseP_append_right _ (fun e he => ?_)).symm
      intro hn
      exact hin (any_name_iff.mpr ⟨e, he, by simpa using hn⟩)

theorem eraseP_eq_erase {l : List DirEntry} (hd : Distinct l) {e : DirEntry} (he : e ∈ l) :
    l.eraseP (·.name = e.name) = l.erase e := by
  induction l with
  | nil => cases he
  | cons x l ih =>
    by_cases hx : x = e
    · subst hx
      rw [List.erase_cons_head, List.eraseP_cons_of_pos (by simp)]
    · have hmem : e ∈ l := (List.mem_cons.mp he).resolve_left (Ne.symm hx)
      have hne : x.name ≠ e.name := by
        intro hn
        exact hx (hd.eq List.mem_cons_self he hn)
      rw [List.eraseP_cons_of_neg (by simpa using hne),
        List.erase_cons_tail (by simpa using hx), ih (List.nodup_cons.mp hd).2 hmem]

theorem mem_eraseP_of_name_ne {l : List DirEntry} {name : String} {e : DirEntry}
    (hn : e.name ≠ name) : e ∈ l.eraseP (·.name = name) ↔ e ∈ l :=
  List.mem_eraseP_of_neg (by simpa using hn)

theorem onPage_modify_eraseP {pages : List (List DirEntry)} {name n : String} {p i : Nat}
    (hn : n ≠ name) :
    OnPage (pages.modify p (·.eraseP (·.name = name))) n i ↔ OnPage pages n i := by
  unfold OnPage
  rw [List.getElem?_modify]
  by_cases hi : p = i
  · subst hi
    cases pages[p]? with
    | none => simp
    | some l =>
      simp only [if_true, Option.map_eq_map, Option.map_some, Option.some.injEq, exists_eq_left']
      constructor
      · rintro ⟨e, he, rfl⟩
        exact ⟨e, (mem_eraseP_of_name_ne hn).mp he, rfl⟩
      · rintro ⟨e, he, rfl⟩
        exact ⟨e, (mem_eraseP_of_name_ne hn).mpr he, rfl⟩
  · simp only [hi, if_false, Option.map_eq_map]
    cases pages[i]? <;> simp

theorem pageUsed_eraseP {l : List DirEntry} {name : String} (h : ∃ e ∈ l, e.name = name) :
    pageUsed (l.eraseP (·.name = name)) + entryBytes name = pageUsed l := by
  obtain ⟨e, he, hn⟩ := h
  obtain ⟨x, l₁, l₂, -, hx, rfl, herase⟩ :=
    List.exists_of_eraseP (p := fun x : DirEntry => decide (x.name = name)) he (by simpa using hn)
  have hx : x.name = name := by simpa using hx
  rw [herase]
  simp [pageUsed, hx]
  omega

theorem set_eq_modify {α : Type} {l : List α} {p : Nat} {a : α} (f : α → α) (h : l[p]? = some a) :
    l.set p (f a) = l.modify p f := by
  apply List.ext_getElem?
  intro i
  rw [List.getElem?_set, List.getElem?_modify]
  by_cases hi : p = i
  · subst hi
    obtain ⟨hlt, rfl⟩ := List.getElem?_eq_some_iff.mp h
    simp [hlt]
  · simp [hi]

theorem Work.del_of_none {w : Work} {name : String} (h : pageIdx w.pages name = none) :
    w.del name = w := by
  unfold pageIdx at h
  rw [Work.del, h]

theorem Work.del_of_some {w : Work} {name : String} {p : Nat} (h : pageIdx w.pages name = some p) :
    w.del name =
      { w with pages := w.pages.modify p (·.eraseP (·.name = name)), dirty := w.marked p } := by
  unfold pageIdx at h
  rw [Work.del, h]

theorem Mirror.del (hm : Mirror env h w) (name : String) :
    ∃ b h', h.del env name = some (b, h') ∧ h'.in_ = h.in_ ∧ Mirror env h' (w.del name) := by
  have hr := hm.resident
  unfold CachedDir.del
  rw [hr.pageOf]
  cases hidx : pageIdx w.pages name with
  | none =>
    rw [Work.del_of_none hidx]
    exact ⟨false, h, rfl, rfl, hm⟩
  | some p =>
    rw [Work.del_of_some hidx]
    obtain ⟨l, hl, e, he, hn⟩ := onPage_of_pageIdx hidx
    have hpage : h.pages[p]? = some ⟨l, pageUsed l⟩ := by
      rw [hr.same, List.getElem?_map, hl]
      rfl
    have hused := pageUsed_eraseP ⟨e, he, hn⟩
    have hmem : ⟨name, e.inode⟩ ∈ w.pages.flatten := by
      rw [← hn]
      exact List.mem_flatten.mpr ⟨l, List.mem_of_getElem? hl, he⟩
    have hdel := hr.index.delete hmem
    have herase := eraseP_eq_erase hr.index.distinct hmem
    have hflat : (w.pages.modify p (·.eraseP (·.name = name))).flatten =
        w.pages.flatten.erase ⟨name, e.inode⟩ := (flatten_modify_eraseP hidx).trans herase
    dsimp only
    rw [hpage]
    dsimp only
    rw [if_neg (by omega)]
    refine ⟨true, _, rfl, rfl, ⟨?_, ?_, fun n => ?_⟩, hm.marked p⟩
    · have hrest : pageUsed l - entryBytes name = pageUsed (l.eraseP (·.name = name)) := by omega
      show h.pages.set p ⟨l.eraseP (·.name = name), pageUsed l - entryBytes name⟩ =
        (w.pages.modify p (·.eraseP (·.name = name))).map _
      rw [hrest]
      refine (set_eq_modify (fun pg : Page => ⟨pg.entries.eraseP (·.name = name),
        pageUsed (pg.entries.eraseP (·.name = name))⟩) hpage).trans ?_
      rw [hr.same]
      symm
      apply map_modify_page
      intro l
      rfl
    · rw [hflat]
      exact hdel
    · show (h.pageOf.erase name).lookup n = _
      by_cases hne : n = name
      · subst hne
        rw [AList.lookup_erase]
        symm
        rw [← Option.not_isSome_iff_eq_none, pageIdx_isSome_iff]
        rintro ⟨x, hx, hxn⟩
        have hdist := hr.index.distinct
        rw [hflat] at hx
        have hxe : x = ⟨n, e.inode⟩ := hdist.eq (List.mem_of_mem_erase hx) hmem hxn
        have hnodup : w.pages.flatten.Nodup := List.Nodup.of_map _ hdist
        rw [hxe] at hx
        exact hnodup.not_mem_erase hx
      · rw [AList.lookup_erase_ne hne, hr.pageOf]
        apply Option.ext
        intro i
        rw [pageIdx_eq_some_iff hr.index.distinct, pageIdx_eq_some_iff (hflat ▸ hdel.distinct),
          onPage_modify_eraseP hne]

end Edits

/-! ## What an edit does to the entries -/

theorem Work.entries_add (w : Work) (name : String) (id : Nat) :
    (⟨name, id⟩ :: w.entries).Perm (w.add name id).entries := by
  obtain ⟨p, pages', hfor, hp, hpages', -⟩ := pageFor_spec w.pages (entryBytes name)
  have hflat : pages'.flatten = w.pages.flatten := by
    rcases hpages' with rfl | rfl
    · rfl
    · exact flatten_append_nil _
  have hperm := flatten_modify_append hp ⟨name, id⟩
  rw [hflat] at hperm
  unfold Work.add
  rw [hfor]
  exact hperm

theorem Work.entries_del (w : Work) (name : String) :
    (w.del name).entries = w.entries.eraseP (·.name = name) := by
  cases hidx : pageIdx w.pages name with
  | none =>
    rw [Work.del_of_none hidx, List.eraseP_of_forall_not]
    intro e he hn
    obtain ⟨l, hl, hel⟩ := List.mem_flatten.mp he
    have hsome := pageIdx_isSome_iff.mpr ⟨e, he, by simpa using hn⟩
    rw [hidx] at hsome
    cases hsome
  | some p =>
    rw [Work.del_of_some hidx]
    exact flatten_modify_eraseP hidx

theorem Work.find_eq_some_iff {w : Work} (hd : Distinct w.entries) {name : String} {id : Nat} :
    w.find name = some id ↔ ⟨name, id⟩ ∈ w.entries := by
  unfold Work.find
  rw [Option.map_eq_some_iff]
  constructor
  · rintro ⟨e, he, rfl⟩
    have hn : e.name = name := by simpa using List.find?_some he
    rw [← hn]
    exact List.mem_of_find?_eq_some he
  · intro he
    cases hf : w.entries.find? (·.name = name) with
    | none =>
      have := List.find?_eq_none.mp hf _ he
      simp at this
    | some x =>
      have hn : x.name = name := by simpa using List.find?_some hf
      rw [hd.eq (List.mem_of_find?_eq_some hf) he hn]
      exact ⟨_, rfl, rfl⟩

theorem Work.find_del_self {w : Work} (hd : Distinct w.entries) (name : String) :
    (w.del name).find name = none := by
  rw [Work.find_eq_none_iff, Work.entries_del]
  intro e he hn
  subst hn
  have hmem := List.mem_of_mem_eraseP he
  rw [eraseP_eq_erase hd hmem] at he
  exact (List.Nodup.mem_erase_iff (List.Nodup.of_map _ hd)).mp he |>.1 rfl

/-! ## Writing the changed pages -/

/-- The pages that are not marked are as they were read. -/
structure Work.Tracked (w : Work) : Prop where
  clean : ∀ p, p ∉ w.dirty → w.pages[p]? = w.node.pages[p]?
  lt : ∀ p ∈ w.dirty, p < w.pages.length

theorem Work.mem_marked {w : Work} {p q : Nat} : q ∈ w.marked p ↔ q = p ∨ q ∈ w.dirty := by
  unfold Work.marked
  split
  · next h =>
    constructor
    · exact .inr
    · rintro (rfl | h')
      · exact h
      · exact h'
  · exact List.mem_cons

theorem getElem?_modify_of_ne {l : List (List DirEntry)} {f : List DirEntry → List DirEntry}
    {p i : Nat} (h : i ≠ p) : (l.modify p f)[i]? = l[i]? := by
  rw [List.getElem?_modify]
  simp only [Ne.symm h, if_false]
  exact Option.map_id'

theorem Work.tracked_checkout (n : Node) : (⟨n, n.pages, []⟩ : Work).Tracked where
  clean _ _ := rfl
  lt := by simp

theorem Work.Tracked.edit {w : Work} (h : w.Tracked) {p : Nat} {pages : List (List DirEntry)}
    (hlen : w.pages.length ≤ pages.length) (hp : p < pages.length)
    (hsame : ∀ i, i ≠ p → pages[i]? = w.pages[i]?) :
    ({ w with pages := pages, dirty := w.marked p } : Work).Tracked where
  clean i hi := by
    have hi' : ¬ (i = p ∨ i ∈ w.dirty) := fun h' => hi (Work.mem_marked.mpr h')
    rw [not_or] at hi'
    exact (hsame i hi'.1).trans (h.clean i hi'.2)
  lt i hi := by
    rcases Work.mem_marked.mp hi with rfl | hi
    · exact hp
    · exact Nat.lt_of_lt_of_le (h.lt i hi) hlen

theorem Work.Tracked.add {w : Work} (h : w.Tracked) (name : String) (id : Nat) :
    (w.add name id).Tracked := by
  obtain ⟨p, pages', hfor, hp, hpages', -⟩ := pageFor_spec w.pages (entryBytes name)
  unfold Work.add
  rw [hfor]
  have hlen : w.pages.length ≤ pages'.length := by
    rcases hpages' with rfl | rfl <;> simp
  refine h.edit ?_ ?_ (fun i hi => ?_)
  · rw [List.length_modify]
    exact hlen
  · rw [List.length_modify]
    exact hp
  · rw [getElem?_modify_of_ne hi]
    rcases hpages' with rfl | hpages'
    · rfl
    · -- the page that was opened is the one the entry goes to
      have hplast : p = w.pages.length := by
        unfold Work.pageFor at hfor
        split at hfor
        · have := congrArg Prod.snd hfor
          simp only at this
          rw [← this] at hpages'
          have := congrArg List.length hpages'
          simp at this
        · exact (congrArg Prod.fst hfor).symm
      rw [hpages']
      by_cases hlt : i < w.pages.length
      · exact List.getElem?_append_left hlt
      · rw [List.getElem?_eq_none_iff.mpr (by simp; omega),
          List.getElem?_eq_none_iff.mpr (by omega)]

theorem Work.Tracked.del {w : Work} (h : w.Tracked) (name : String) : (w.del name).Tracked := by
  cases hidx : pageIdx w.pages name with
  | none =>
    rw [Work.del_of_none hidx]
    exact h
  | some p =>
    rw [Work.del_of_some hidx]
    obtain ⟨l, hl, -⟩ := onPage_of_pageIdx hidx
    refine h.edit ?_ ?_ (fun i hi => ?_)
    · rw [List.length_modify]
    · rw [List.length_modify]
      exact (List.getElem?_eq_some_iff.mp hl).1
    · exact getElem?_modify_of_ne hi

theorem Work.Tracked.withNode {w : Work} (h : w.Tracked) {n : Node} (hn : n.pages = w.node.pages) :
    ({ w with node := n } : Work).Tracked where
  clean p hp := by
    rw [hn]
    exact h.clean p hp
  lt := h.lt

@[simp] theorem Work.add_node (w : Work) (name : String) (id : Nat) :
    (w.add name id).node = w.node := rfl

@[simp] theorem Work.del_node (w : Work) (name : String) : (w.del name).node = w.node := by
  unfold Work.del
  split <;> rfl

/-- The working copy has at most `k` pages more than the directory. -/
def Work.Grown (w : Work) (k : Nat) : Prop := w.pages.length ≤ w.node.pages.length + k

theorem Work.grown_checkout (n : Node) : Work.Grown ⟨n, n.pages, []⟩ 0 := Nat.le_refl _

theorem Work.Grown.mono {w : Work} {k k' : Nat} (h : w.Grown k) (hk : k ≤ k') : w.Grown k' :=
  Nat.le_trans h (Nat.add_le_add_left hk _)

theorem Work.Grown.add {w : Work} {k : Nat} (h : w.Grown k) (name : String) (id : Nat) :
    (w.add name id).Grown (k + 1) := by
  have hlen : (Work.pageFor w.pages (entryBytes name)).2.length ≤ w.pages.length + 1 := by
    unfold Work.pageFor
    split
    · exact Nat.le_succ _
    · rw [List.length_append, List.length_singleton]
  show (List.modify _ _ _).length ≤ _
  rw [List.length_modify]
  exact hlen.trans (Nat.succ_le_succ h)

theorem Work.Grown.del {w : Work} {k : Nat} (h : w.Grown k) (name : String) :
    (w.del name).Grown k := by
  unfold Work.Grown Work.del at *
  split
  · exact h
  · dsimp only
    rw [List.length_modify]
    exact h

theorem getElem?_putPage {l : List (List DirEntry)} {p i : Nat} {c : List DirEntry} :
    (putPage l p c)[i]? =
      if i = p then some c else if i < l.length then l[i]? else if i < p then some []
          else none := by
  unfold putPage
  rw [List.getElem?_set]
  by_cases hip : p = i
  · subst hip
    rw [if_pos rfl, if_pos (by simp; omega), if_pos rfl]
  · rw [if_neg hip, if_neg (Ne.symm hip)]
    by_cases hlt : i < l.length
    · rw [if_pos hlt, List.getElem?_append_left hlt]
    · rw [if_neg hlt, List.getElem?_append_right (by omega), List.getElem?_replicate]
      by_cases hi : i < p
      · rw [if_pos hi, if_pos (by omega)]
      · rw [if_neg hi, if_neg (by omega)]

theorem putPage_step {pages cur : List (List DirEntry)} {p : Nat} {todo : List Nat}
    {c : List DirEntry} (hc : pages[p]? = some c)
    (h : ∀ i, i ∉ p :: todo → cur[i]? = pages[i]?) :
    ∀ i, i ∉ todo → (putPage cur p c)[i]? = pages[i]? := by
  intro i hi
  rw [getElem?_putPage]
  by_cases hip : i = p
  · rw [if_pos hip, hip, hc]
  · have hcur := h i (fun hm => (List.mem_cons.mp hm).elim hip hi)
    rw [if_neg hip]
    by_cases hlt : i < cur.length
    · rw [if_pos hlt, hcur]
    · have hnone : cur[i]? = none := List.getElem?_eq_none_iff.mpr (by omega)
      rw [hnone] at hcur
      have hpast := List.getElem?_eq_none_iff.mp hcur.symm
      have hp := (List.getElem?_eq_some_iff.mp hc).1
      rw [if_neg hlt, if_neg (by omega), ← hcur]

end Spec
end BloomFS
