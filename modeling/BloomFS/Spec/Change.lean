/-
What each operation does to the namespace.

`Change handles v op r v'` is the file system without pages, clocks and charges: a
call of `op` that answers `r` takes the view `v` to `v'`.  The machine does nothing
else, and a call that returns an error changes nothing.
-/
import BloomFS.Spec.Calls
import BloomFS.Spec.Effects
import Mathlib.Logic.Relation

namespace BloomFS
namespace Spec

open Bytes Exec Dir Fs Store
open Dir.Segment (Distinct)

/-- The contents as bytes. -/
def Outline.blob (o : Outline) : Bytes := if o.isDir then dirBytes o.pages else o.data

def blank (generation : Nat) : Outline := { generation := generation }

namespace View

/-- Give the id back, its slot blank and of the next generation. -/
def reclaim (v : View) (id : Nat) : View :=
  { v.set id (blank ((v.node id).generation + 1)) with free := id :: v.free }

/-- Drop a link.  The last one gives the id back, unless it is held open. -/
def drop (v : View) (id : Nat) : View :=
  let l := pred32 (v.node id).nlink
  if l = 0 ∧ v.opens id = 0 then v.reclaim id else v.set id { v.node id with nlink := l }

/-- The directory `d` has the directory `c` in it. -/
def Sub (v : View) (d c : Nat) : Prop :=
  (v.node d).isDir ∧ (v.node c).isDir ∧ ∃ e ∈ (v.node d).entries, e.inode = c

/-- The id that is handed out next. -/
def alloc (v : View) : Option (Nat × View) :=
  match v.free with
  | id :: rest => some (id, { v with free := rest })
  | [] => if v.cap ≤ v.next then none else some (v.next, { v with next := v.next + 1 })

theorem alloc_cases {v v₁ : View} {id : Nat} (h : v.alloc = some (id, v₁)) :
    (∃ rest, v.free = id :: rest ∧ v₁ = { v with free := rest }) ∨
      v.free = [] ∧ id = v.next ∧ v.next < v.cap ∧ v₁ = { v with next := v.next + 1 } := by
  unfold alloc at h
  cases hf : v.free with
  | cons i rest =>
    rw [hf] at h
    cases h
    exact .inl ⟨rest, rfl, rfl⟩
  | nil =>
    rw [hf] at h
    dsimp only at h
    split at h
    · cases h
    · next hn =>
      cases h
      exact .inr ⟨rfl, rfl, Nat.not_le.mp hn, rfl⟩

/-- Handing out an id touches the free list and the high-water mark only. -/
theorem alloc_same {v v₁ : View} {id : Nat} (h : v.alloc = some (id, v₁)) :
    v₁.node = v.node ∧ v₁.cap = v.cap ∧ v₁.opens = v.opens ∧ v₁.clean = v.clean := by
  rcases alloc_cases h with ⟨rest, -, rfl⟩ | ⟨-, -, -, rfl⟩
  · exact ⟨rfl, rfl, rfl, rfl⟩
  · exact ⟨rfl, rfl, rfl, rfl⟩

/-- Drop an open count.  The last one gives an unlinked id back. -/
def close (v : View) (id : Nat) : View :=
  let c := pred32 (v.opens id)
  let v' := { v with opens := Function.update v.opens id c }
  if c = 0 ∧ (v.node id).nlink = 0 then v'.reclaim id else v'

end View

def born (kind : UInt8) (data : Bytes) (generation : Nat) : Outline where
  generation := generation
  kind := kind
  nlink := if kind = Inode.typeDir then 2 else 1
  data := data

/-- The directory, the name, the kind and the contents of what the operation
creates. -/
def creates : Op → Option (Nat × String × UInt8 × Bytes)
  | .mkdir parent name => some (parent, name, Inode.typeDir, [])
  | .create parent name => some (parent, name, Inode.typeRegular, [])
  | .symlink parent name target => some (parent, name, Inode.typeLink, Utf8.encode target)
  | _ => none

/-- The file the operation writes, and what becomes of its contents. -/
def writes : Op → Option (Nat × (Bytes → Bytes))
  | .writeFile id data => some (id, fun _ => data)
  | .writeAt id off data => some (id, fun b => if data.isEmpty then b else overwrite b off data)
  | .append id data => some (id, fun b => if data.isEmpty then b else overwrite b b.length data)
  | .truncate id newSize => some (id, fun b => if newSize = b.length then b else resize b newSize)
  | _ => none

/-- What a write answers, given the contents before. -/
def wrote (old : Bytes) : Op → Reply
  | .append _ _ => .id old.length
  | _ => .unit

/-- The operation leaves the view alone. -/
def Idle (handles : List Handle) : Op → Prop
  | .mkdir _ _ => False
  | .create _ _ => False
  | .symlink _ _ _ => False
  | .writeFile _ _ => False
  | .writeAt _ _ _ => False
  | .append _ _ => False
  | .truncate _ _ => False
  | .unlink _ _ => False
  | .rmdir _ _ => False
  | .link _ _ _ => False
  | .rename _ _ _ _ => False
  | .openFile _ => False
  | .close i => ∀ h, handles[i]? = some h → h.closed
  | .remount _ => False
  | _ => True

/-- What the destination of a rename named before: nothing, or another id whose
link is dropped. -/
inductive Replaced (v : View) (dst : Nat) (dn : String) (id : Nat) : List DirEntry → View → Prop
  | absent (h : ∀ e ∈ (v.node dst).entries, e.name ≠ dn) : Replaced v dst dn id [] v
  | dropped {old : Nat} (h : ⟨dn, old⟩ ∈ (v.node dst).entries) (hne : old ≠ id)
      (hlt : old < v.cap) : Replaced v dst dn id [⟨dn, old⟩] (v.drop old)

/-- A new inode `id` with its name in `parent`. -/
inductive Created (v : View) (parent : Nat) (name : String) (kind : UInt8) (data : Bytes)
    (id : Nat) : View → Prop
  | mk {v₁ : View} {nlink : UInt32} {o' : Outline} (hp : parent < v.cap)
      (hd : (v.node parent).isDir) (ha : v.alloc = some (id, v₁)) (hid : id < v.cap)
      (hn : nlink = if kind = Inode.typeDir then (v.node parent).nlink +
        1 else (v.node parent).nlink)
      (hs : kind = Inode.typeDir → (v.node parent).nlink.toNat + 1 < 2 ^ 32)
      (habs : ∀ e ∈ (v.node parent).entries, e.name ≠ name)
      (he : Edited (v.node parent) [] [⟨name, id⟩] nlink o') :
      Created v parent name kind data id
        { (v₁.set id (born kind data (v.node id).generation)).set parent o' with
        clean := v.clean && (v.node id).blob.isEmpty }

inductive Change (handles : List Handle) (v : View) : Op → Reply → View → Prop
  | quiet {op : Op} {r : Reply} (h : Idle handles op) : Change handles v op r v
  | write {op : Op} {id : Nat} {f : Bytes → Bytes} (h : writes op = some (id, f)) (hid : id < v.cap)
      (hk : (v.node id).kind = Inode.typeRegular) :
      Change handles v op (wrote (v.node id).data op)
        (v.set id { v.node id with data := f (v.node id).data })
  | create {op : Op} {parent id : Nat} {name : String} {kind : UInt8} {data : Bytes} {v' : View}
      (h : creates op = some (parent, name, kind, data))
      (hc : Created v parent name kind data id v') : Change handles v op (.id id) v'
  | unlink {parent id : Nat} {name : String} {o' : Outline} (hp : parent < v.cap)
      (hd : (v.node parent).isDir) (hm : ⟨name, id⟩ ∈ (v.node parent).entries) (hid : id < v.cap)
      (hf : ¬ (v.node id).isDir)
      (he : Edited (v.node parent) [⟨name, id⟩] [] (v.node parent).nlink o') :
      Change handles v (.unlink parent name) .unit ((v.set parent o').drop id)
  | rmdir {parent id : Nat} {name : String} {o' : Outline} (hp : parent < v.cap)
      (hd : (v.node parent).isDir) (hm : ⟨name, id⟩ ∈ (v.node parent).entries) (hid : id < v.cap)
      (hc : (v.node id).isDir) (hempty : (v.node id).entries = [])
      (he : Edited (v.node parent) [⟨name, id⟩] [] (pred32 (v.node parent).nlink) o') :
      Change handles v (.rmdir parent name) .unit ((v.set parent o').reclaim id)
  | link {parent target : Nat} {name : String} {o' : Outline} (hp : parent < v.cap)
      (hd : (v.node parent).isDir) (ht : target < v.cap) (hf : ¬ (v.node target).isDir)
      (hs : (v.node target).nlink.toNat + 1 < 2 ^ 32)
      (habs : ∀ e ∈ (v.node parent).entries, e.name ≠ name)
      (he : Edited (v.node parent) [] [⟨name, target⟩] (v.node parent).nlink o') :
      Change handles v (.link parent name target) .unit
        ((v.set target { v.node target with nlink := (v.node target).nlink + 1 }).set parent o')
  | stay {src dst id : Nat} {sn dn : String} (hs : ⟨sn, id⟩ ∈ (v.node src).entries)
      (hd : ⟨dn, id⟩ ∈ (v.node dst).entries) : Change handles v (.rename src sn dst dn) .unit v
  | within {src id : Nat} {sn dn : String} {old : List DirEntry} {v₁ : View} {o' : Outline}
      (hp : src < v.cap) (hd : (v.node src).isDir) (hm : ⟨sn, id⟩ ∈ (v.node src).entries)
      (hr : Replaced v src dn id old v₁)
      (he : Edited (v.node src) (⟨sn, id⟩ :: old) [⟨dn, id⟩] (v.node src).nlink o') :
      Change handles v (.rename src sn src dn) .unit (v₁.set src o')
  | across {src dst id : Nat} {sn dn : String} {old : List DirEntry} {v₁ : View} {s' d' : Outline}
      (hne : src ≠ dst) (hp : src < v.cap) (hsd : (v.node src).isDir) (hq : dst < v.cap)
      (hdd : (v.node dst).isDir) (hm : ⟨sn, id⟩ ∈ (v.node src).entries)
      (hloop : (v.node id).isDir → ¬ Relation.ReflTransGen v.Sub id dst)
      (hr : Replaced v dst dn id old v₁)
      (hed : Edited (v.node dst) old [⟨dn, id⟩] (v.node dst).nlink d')
      (hes : Edited (v.node src) [⟨sn, id⟩] [] (v.node src).nlink s') :
      Change handles v (.rename src sn dst dn) .unit ((v₁.set dst d').set src s')
  | openFile {id : Nat} (hid : id < v.cap) (hk : (v.node id).kind = Inode.typeRegular)
      (hs : (v.opens id).toNat + 1 < 2 ^ 32) :
      Change handles v (.openFile id) (.id id)
        { v with opens := Function.update v.opens id (v.opens id + 1) }
  | close {i : Nat} {h : Handle} (hh : handles[i]? = some h) (ho : ¬ h.closed) :
      Change handles v (.close i) .unit (v.close h.id)

theorem Change.created {handles : List Handle} {v v' : View} {op : Op} {r : Reply} {parent : Nat}
    {name : String} {kind : UInt8} {data : Bytes} (hc : Change handles v op r v')
    (h : creates op = some (parent, name, kind, data)) :
    ∃ id, r = .id id ∧ Created v parent name kind data id v' := by
  have hbusy : ¬ Idle handles op ∧ writes op = none := by
    cases op with
    | mkdir | create | symlink => exact ⟨fun hi => hi, rfl⟩
    | _ => cases h
  cases hc with
  | quiet hi => exact absurd hi hbusy.1
  | write hw =>
    rw [hbusy.2] at hw
    cases hw
  | create h' hmade =>
    rw [h] at h'
    cases h'
    exact ⟨_, rfl, hmade⟩
  | _ => cases h

/-! ## The machine makes such changes -/

section Machine

variable {env : Env} {t : State} {handles : List Handle}

theorem allocInode_sat :
    Sat allocInode.1 t
      (fun id t' => ∃ v₁, t.view.alloc = some (id, v₁) ∧ t'.view = v₁ ∧ t'.node = t.node ∧
        t'.cap = t.cap ∧ (id ∈ t.free ∨ id = t.next ∧ t.next < t.cap))
      (fun _ t' => t' = t) := by
  unfold Sat
  rw [allocInode, Within.get_bind_run]
  cases hf : t.free with
  | cons id rest =>
    refine ⟨_, ?_, rfl, rfl, rfl, .inl List.mem_cons_self⟩
    unfold View.alloc
    rw [show t.view.free = id :: rest from hf]
    rfl
  | nil =>
    by_cases hn : t.cap ≤ t.next
    · simp only [if_pos hn]
      rfl
    · simp only [if_neg hn]
      refine ⟨_, ?_, rfl, rfl, rfl, .inr ⟨rfl, Nat.not_le.mp hn⟩⟩
      unfold View.alloc
      rw [show t.view.free = [] from hf]
      dsimp only
      rw [if_neg (show ¬ t.view.cap ≤ t.view.next from hn), ← hf]
      rfl

theorem toNat_succ32 {n : UInt32} (h : n.toNat + 1 < 2 ^ 32) : (n + 1).toNat = n.toNat + 1 := by
  rw [UInt32.toNat_add]
  exact Nat.mod_eq_of_lt h

theorem reclaim_sat {id : Nat} {n : Node} (hid : id < t.cap)
    (hn : n.generation.toNat = (t.view.node id).generation) :
    Sat (reclaim id n).1 t (fun _ t' => t'.view = t.view.reclaim id) (fun f _ => f = .panic) := by
  unfold Sat
  rw [run_reclaim n hid]
  by_cases hg : n.generation.toNat + 1 < 2 ^ 32
  · rw [if_pos hg]
    have hset := view_setNode t id { generation := n.generation + 1 }
    have hblank : blank ((t.view.node id).generation + 1) =
        Node.outline { generation := n.generation + 1 } := by
      rw [← hn, ← toNat_succ32 hg]
      rfl
    unfold View.reclaim
    rw [hblank, ← hset]
    rfl
  · rw [if_neg hg]

theorem putNode_sat {id : Nat} (n : Node) (hid : id < t.cap) {E : Fault Fs.Error → State → Prop} :
    Sat (putNode id n).1 t (fun _ t' => t' = t.setNode id n) E := by
  unfold Sat
  rw [run_putNode hid]

theorem update_sat {f : State → State} {hf : ∀ t, (f t).log = t.log}
    {E : Fault Fs.Error → State → Prop} : Sat (update f hf).1 t (fun _ t' => t' = f t) E := rfl

theorem now_sat {E : Fault Fs.Error → State → Prop} :
    Sat (now env).1 t (fun _ t' => t' = { t with ticks := t.ticks + 1 }) E := rfl

theorem dropLink_sat {id : Nat} {n : Node} (hid : id < t.cap) (hn : n.outline = t.view.node id) :
    Sat (dropLink env id n).1 t (fun _ t' => t'.view = t.view.drop id) (fun f _ => f = .panic) := by
  have hlink : n.nlink = (t.view.node id).nlink := congrArg Outline.nlink hn
  unfold dropLink
  refine sat_get_bind (Within.sat_ite (fun h => ?_) (fun h => ?_))
  · have hlast : pred32 (t.view.node id).nlink = 0 ∧ t.view.opens id = 0 := hlink ▸ h
    refine (reclaim_sat hid (congrArg Outline.generation hn)).mono ?_ (fun _ _ h => h)
    intro _ t' hview
    rw [hview, View.drop]
    exact (if_pos hlast).symm
  · have hlast : ¬ (pred32 (t.view.node id).nlink = 0 ∧ t.view.opens id = 0) := hlink ▸ h
    refine sat_bind now_sat ?_ (fun _ _ h => h)
    rintro c _ rfl
    refine (putNode_sat (t := { t with ticks := t.ticks + 1 }) _ hid).mono ?_ (fun _ _ h => h)
    rintro _ _ rfl
    rw [view_setNode, View.drop]
    refine Eq.trans ?_ (if_neg hlast).symm
    rw [← hn]
    rfl

/-- What the operations need of the state they start from, with the handles their
caller holds. -/
structure Ready (t : State) (handles : List Handle) : Prop extends Sane t where
  cap_lt : t.cap < 2 ^ 64
  free_lt : ∀ id ∈ t.free, id < t.cap
  handle_lt : ∀ h ∈ handles, h.id < t.cap

theorem succ32_sat (n : UInt32) :
    Sat (succ32 n).1 t (fun m t' => t' = t ∧ m = n + 1 ∧ n.toNat + 1 < 2 ^ 32)
      (fun f _ => f = .panic) := by
  unfold succ32
  refine Within.sat_ite (fun h => sat_pure ⟨rfl, rfl, h⟩) (fun _ => sat_panic rfl)

theorem renew_sat {id : Nat} (n : Node) (hid : id < t.cap) {E : Fault Fs.Error → State → Prop} :
    Sat (renew id n).1 t (fun _ t' =>
      t' = { t.setNode id n with clean := t.clean && (t.node id).blob.isEmpty }) E := by
  unfold Sat
  rw [run_renew hid]

theorem undone_of_panic {f : Fault Fs.Error} {t t' : State} (h : f = .panic) : Undone t f t' := by
  subst h
  exact .panic

theorem undone_of_eq {f : Fault Fs.Error} {t t' : State} (h : t' = t) : Undone t f t' := by
  subst h
  exact fun _ _ => rfl

theorem find_none_iff {n : Node} {name : String} :
    Work.find ⟨n, n.pages, []⟩ name = none ↔ ∀ e ∈ n.outline.entries, e.name ≠ name :=
  Work.find_eq_none_iff

theorem find_some_iff {n : Node} (hn : Paged n.pages) {name : String} {id : Nat} :
    Work.find ⟨n, n.pages, []⟩ name = some id ↔ ⟨name, id⟩ ∈ n.outline.entries :=
  Work.find_eq_some_iff (w := ⟨n, n.pages, []⟩) hn.distinct

theorem createNode_sat (hl : env.Lawful) (h : Ready t handles) (parent : Nat) (name : String)
    (kind : UInt8) (mode : UInt16) :
    Sat (createNode env parent name kind mode).1 t
      (fun id t' => parent ≠ id ∧ Created t.view parent name kind [] id t'.view) (Undone t) := by
  unfold createNode
  refine sat_bind (checkout_sat parent) ?_ (fun _ _ => undone_of_eq)
  rintro w t ⟨rfl, hp, hd, rfl⟩
  have hpaged := h.neat parent hp hd
  refine Within.sat_ite (fun _ => sat_fail fun _ _ => rfl) (fun hnone => ?_)
  have hnone := Option.not_isSome_iff_eq_none.mp hnone
  refine sat_bind allocInode_sat ?_ (fun _ _ => undone_of_eq)
  rintro id t₁ ⟨v₁, ha, rfl, hnode, hcap, hwhere⟩
  have hid : id < t.cap := by
    rcases hwhere with hfree | ⟨rfl, hnext⟩
    · exact h.free_lt id hfree
    · exact hnext
  have hne : parent ≠ id := by
    rintro rfl
    rcases hwhere with hfree | ⟨rfl, -⟩
    · exact h.free _ hfree hd
    · exact h.fresh hd
  refine sat_bind (getNode_sat id) ?_ (fun f t' hf => ?_)
  · rintro prev t₁ ⟨rfl, -, rfl⟩
    refine sat_bind (now_sat (E := fun _ _ => False)) ?_ (fun _ _ => False.elim)
    rintro c _ rfl
    refine sat_bind (renew_sat (t := { t₁ with ticks := t₁.ticks + 1 }) _ (hcap ▸ hid)
      (E := fun _ _ => False)) ?_ (fun _ _ => False.elim)
    rintro _ t₂ ht₂
    have hcap₂ : t₂.cap = t.cap := by
      rw [ht₂]
      exact hcap
    have hview₂ : t₂.view = { t₁.view.set id (born kind [] (t.view.node id).generation) with
        clean := t.view.clean && (t.view.node id).blob.isEmpty } := by
      have hclean : t₁.clean = t.clean := (View.alloc_same ha).2.2.2
      have hset := view_setNode { t₁ with ticks := t₁.ticks + 1 } id
        (child kind mode (t₁.node id).generation c)
      have hview : t₂.view = { t₁.view.set id (born kind [] (t₁.node id).generation.toNat) with
          clean := t₁.clean && (t₁.node id).blob.isEmpty } := by
        rw [ht₂]
        exact congrArg (fun v : View => { v with clean := t₁.clean && (t₁.node id).blob.isEmpty })
          hset
      rw [hview, hclean, hnode]
      rfl
    have htail : ∀ nlink : UInt32, (nlink = if kind = Inode.typeDir then
        (t.node parent).nlink + 1 else (t.node parent).nlink) →
        (kind = Inode.typeDir → (t.node parent).nlink.toNat + 1 < 2 ^ 32) →
        Sat (do
          flush env parent { (⟨t.node parent, (t.node parent).pages, []⟩ : Work).add name id with
            node := { t.node parent with nlink := nlink } }
          return id : Step Nat).1 t₂
          (fun id t' => parent ≠ id ∧ Created t.view parent name kind [] id t'.view)
              (Undone t) := by
      intro nlink hnlink hs
      have hedits := (Work.edits_checkout hpaged).add hnone id
      refine sat_bind (flush_edits hl (by rw [hcap₂]; exact hp) (n := t.node parent)
        (hedits.withNlink nlink) (by simp) hpaged ?_) ?_ (fun _ _ => undone_of_panic)
      · intro e he
        rw [List.mem_singleton.mp he]
        exact Nat.lt_trans hid h.cap_lt
      · rintro _ t₃ ⟨o', he, hview₃⟩
        refine sat_pure ⟨hne, ?_⟩
        rw [hview₃, hview₂]
        exact .mk hp hd ha hid hnlink hs (find_none_iff.mp hnone) he
    dsimp only
    refine Within.sat_ite (fun hk => ?_) (fun hk => ?_)
    · refine sat_bind (succ32_sat _) ?_ (fun _ _ => undone_of_panic)
      rintro m _ ⟨rfl, rfl, hs⟩
      exact htail _ (if_pos hk).symm (fun _ => hs)
    · exact htail _ (if_neg hk).symm (fun h => absurd h hk)
  · exact absurd hid (by rw [← hcap]; exact Nat.not_lt.mpr hf.2)

theorem setData_sat {id : Nat} (n : Node) (blob : Bytes) (hid : id < t.cap) :
    Sat (setData env id n blob).1 t
      (fun _ t' => t'.view = t.view.set id { n.outline with data := blob })
      (fun f _ => f = .panic) := by
  unfold setData
  refine Within.sat_ite (fun _ => sat_panic rfl) (fun _ => ?_)
  unfold Sat
  rw [run_pay_put hid (fun c => { n with data := blob, mtime := c, ctime := c }) rfl]
  exact view_setNode _ _ _

theorem writeRange_sat {id : Nat} (n : Node) (off : Nat) (data : Bytes) (hid : id < t.cap)
    (hn : n.outline = t.view.node id) :
    Sat (writeRange env id n off data).1 t
      (fun _ t' => t'.view = t.view.set id { t.view.node id with
        data := if data.isEmpty then n.data else overwrite n.data off data })
      (fun f _ => f = .panic) := by
  unfold writeRange
  refine Within.sat_ite (fun h => ?_) (fun h => Within.sat_ite (fun _ => sat_panic rfl)
    (fun _ => ?_))
  · refine sat_pure ?_
    rw [if_pos h, ← hn]
    refine (View.set_same ?_).symm
    rw [← hn]
    rfl
  · unfold Sat
    rw [run_pay_put hid (fun c => { n with
      data := overwrite n.data off data, mtime := c, ctime := c }) rfl, if_neg h, ← hn]
    exact view_setNode _ _ _

theorem Created.cap_eq {v v' : View} {parent id : Nat} {name : String} {kind : UInt8} {data : Bytes}
    (h : Created v parent name kind data id v') : v'.cap = v.cap := by
  cases h with
  | mk _ _ ha => exact (View.alloc_same ha).2.1

theorem Created.id_lt {v v' : View} {parent id : Nat} {name : String} {kind : UInt8} {data : Bytes}
    (h : Created v parent name kind data id v') : id < v'.cap := by
  rw [h.cap_eq]
  cases h with
  | mk _ _ _ hid => exact hid

theorem Created.fill {v v' : View} {parent id : Nat} {name : String} {kind : UInt8}
    (hne : parent ≠ id) (h : Created v parent name kind [] id v') (data : Bytes) :
    Created v parent name kind data id (v'.set id { v'.node id with data := data }) := by
  cases h with
  | @mk v₁ nlink o' hp hd ha hid hn hs habs he =>
    have hnode : ((v₁.set id (born kind [] (v.node id).generation)).set parent o').node id =
        born kind [] (v.node id).generation := by
      rw [View.node_set_of_ne (Ne.symm hne), View.node_set_self]
    have hset : ((v₁.set id (born kind [] (v.node id).generation)).set parent o').set id
      (born kind data (v.node id).generation) =
        (v₁.set id (born kind data (v.node id).generation)).set parent o' := by
      rw [View.set_comm hne, View.set_set]
    have hfill : ({ (v₁.set id (born kind [] (v.node id).generation)).set parent o' with
          clean := v.clean && (v.node id).blob.isEmpty } : View).set id
            (born kind data (v.node id).generation) =
        { (v₁.set id (born kind data (v.node id).generation)).set parent o' with
          clean := v.clean && (v.node id).blob.isEmpty } :=
      congrArg (fun v' : View => { v' with clean := v.clean && (v.node id).blob.isEmpty }) hset
    dsimp only
    rw [hnode]
    exact hfill ▸ .mk hp hd ha hid hn hs habs he

theorem symlink_sat (hl : env.Lawful) (h : Ready t handles) (parent : Nat) (name target : String) :
    Sat (symlink env parent name target).1 t
      (fun id t' => Created t.view parent name Inode.typeLink (Utf8.encode target) id t'.view)
      (Undone t) := by
  unfold symlink
  refine Within.sat_ite (fun _ => sat_fail fun _ _ => rfl) (fun _ => ?_)
  refine sat_bind (createNode_sat hl h parent name _ _) ?_ (fun _ _ h => h)
  rintro id t₁ ⟨hne, hc⟩
  have hid : id < t₁.cap := hc.id_lt
  refine sat_bind (getNode_sat id) ?_ (fun f t' hf => ?_)
  · rintro n t₁ ⟨rfl, -, rfl⟩
    refine sat_bind (setData_sat _ _ hid) ?_ (fun _ _ => undone_of_panic)
    intro _ t₂ hview
    refine sat_pure ?_
    rw [hview]
    exact hc.fill hne _
  · exact absurd hid (Nat.not_lt.mpr hf.2)

theorem unlink_sat (hl : env.Lawful) (h : Ready t handles) (parent : Nat) (name : String) :
    Sat (unlink env parent name).1 t
      (fun _ t' => Change handles t.view (.unlink parent name) .unit t'.view) (Undone t) := by
  unfold unlink
  refine sat_bind (checkout_sat parent) ?_ (fun _ _ => undone_of_eq)
  rintro w t ⟨rfl, hp, hd, rfl⟩
  have hpaged := h.neat parent hp hd
  dsimp only
  cases hf : Work.find ⟨t.node parent, (t.node parent).pages, []⟩ name with
  | none => exact sat_fail fun _ _ => rfl
  | some id =>
    refine sat_bind (getNode_sat id) ?_ (fun _ _ hf => undone_of_eq hf.1)
    rintro n t ⟨rfl, hid, rfl⟩
    refine Within.sat_ite (fun _ => sat_fail fun _ _ => rfl) (fun hfile => ?_)
    have hne : id ≠ parent := by
      rintro rfl
      exact hfile hd
    refine sat_bind (flush_edits hl hp ((Work.edits_checkout hpaged).del hf)
      (by simp) hpaged (by simp)) ?_ (fun _ _ => undone_of_panic)
    rintro _ t₁ ⟨o', he, hview⟩
    rw [Work.del_node] at he
    have hcap : t₁.cap = t.cap := congrArg View.cap hview
    have hnode : (t.node id).outline = t₁.view.node id := by
      rw [hview, View.node_set_of_ne hne]
      rfl
    refine (dropLink_sat (by rw [hcap]; exact hid) hnode).mono ?_ (fun _ _ => undone_of_panic)
    intro _ t₂ hview₂
    rw [hview₂, hview]
    exact .unlink hp hd ((find_some_iff hpaged).mp hf) hid hfile he

theorem rmdir_sat (hl : env.Lawful) (h : Ready t handles) (parent : Nat) (name : String) :
    Sat (rmdir env parent name).1 t
      (fun _ t' => Change handles t.view (.rmdir parent name) .unit t'.view) (Undone t) := by
  unfold rmdir
  refine sat_bind (checkout_sat parent) ?_ (fun _ _ => undone_of_eq)
  rintro w t ⟨rfl, hp, hd, rfl⟩
  have hpaged := h.neat parent hp hd
  dsimp only
  cases hf : Work.find ⟨t.node parent, (t.node parent).pages, []⟩ name with
  | none => exact sat_fail fun _ _ => rfl
  | some id =>
    refine sat_bind (getNode_sat id) ?_ (fun _ _ hf => undone_of_eq hf.1)
    rintro n t ⟨rfl, hid, rfl⟩
    refine Within.sat_ite (fun _ => sat_fail fun _ _ => rfl) (fun hdir => ?_)
    refine Within.sat_ite (fun _ => sat_fail fun _ _ => rfl) (fun hempty => ?_)
    have hedits := ((Work.edits_checkout hpaged).del hf).withNlink (pred32 (t.node parent).nlink)
    refine sat_bind (flush_edits hl hp hedits (by simp) hpaged (by simp)) ?_
      (fun _ _ => undone_of_panic)
    rintro _ t₁ ⟨o', he, hview⟩
    have hcap : t₁.cap = t.cap := congrArg View.cap hview
    have hgen : (t.node id).generation.toNat = (t₁.view.node id).generation := by
      rw [hview, View.node_set_of_ne (h.ne_of_find hd hf)]
      rfl
    refine (reclaim_sat (by rw [hcap]; exact hid) hgen).mono ?_ (fun _ _ => undone_of_panic)
    intro _ t₂ hview₂
    rw [hview₂, hview]
    exact .rmdir hp hd ((find_some_iff hpaged).mp hf) hid (not_not.mp hdir)
      (List.isEmpty_iff.mp (not_not.mp hempty)) he

theorem link_sat (hl : env.Lawful) (h : Ready t handles) (parent : Nat) (name : String)
    (target : Nat) :
    Sat (link env parent name target).1 t
      (fun _ t' => Change handles t.view (.link parent name target) .unit t'.view) (Undone t) := by
  unfold link
  refine sat_bind (getNode_sat target) ?_ (fun _ _ hf => undone_of_eq hf.1)
  rintro n t ⟨rfl, hid, rfl⟩
  refine Within.sat_ite (fun _ => sat_fail fun _ _ => rfl) (fun hfile => ?_)
  refine sat_bind (checkout_sat parent) ?_ (fun _ _ => undone_of_eq)
  rintro w t ⟨rfl, hp, hd, rfl⟩
  have hpaged := h.neat parent hp hd
  refine Within.sat_ite (fun _ => sat_fail fun _ _ => rfl) (fun hnone => ?_)
  have hnone := Option.not_isSome_iff_eq_none.mp hnone
  refine sat_bind (succ32_sat _) ?_ (fun _ _ => undone_of_panic)
  rintro m t ⟨rfl, rfl, hs⟩
  refine sat_bind (now_sat (E := fun _ _ => False)) ?_ (fun _ _ => False.elim)
  rintro c _ rfl
  refine sat_bind (putNode_sat (t := { t with ticks := t.ticks + 1 }) _ hid
    (E := fun _ _ => False)) ?_ (fun _ _ => False.elim)
  rintro _ t₁ ht₁
  have hview₁ : t₁.view = t.view.set target { t.view.node target with
      nlink := (t.view.node target).nlink + 1 } := by
    rw [ht₁, view_setNode]
    rfl
  have hcap : t₁.cap = t.cap := congrArg View.cap hview₁
  refine (flush_edits hl (by rw [hcap]; exact hp) ((Work.edits_checkout hpaged).add hnone target)
    (by simp) hpaged ?_).mono ?_ (fun _ _ => undone_of_panic)
  · intro e he
    rw [List.mem_singleton.mp he]
    exact Nat.lt_trans hid h.cap_lt
  · rintro _ t₂ ⟨o', he, hview₂⟩
    rw [hview₂, hview₁]
    exact .link hp hd hid hfile hs (find_none_iff.mp hnone) he

theorem mem_subdirs {l : List DirEntry} {below : List Nat} (h : subdirs t l = .ok below)
    {e : DirEntry} (he : e ∈ l) (hd : (t.node e.inode).isDir) : e.inode ∈ below := by
  induction l generalizing below with
  | nil => cases he
  | cons x l ih =>
    unfold subdirs at h
    split at h
    · cases h
    · cases hrest : subdirs t l with
      | error f =>
        rw [hrest] at h
        cases h
      | ok rest =>
        rw [hrest, ok_bind] at h
        cases h
        rcases List.mem_cons.mp he with rfl | he
        · rw [if_pos hd]
          exact List.mem_cons_self
        · split
          · exact List.mem_cons_of_mem _ (ih hrest he)
          · exact ih hrest he

/-- A search that finds nothing looked at everything below its stack. -/
theorem walk_false {target fuel : Nat} {stack : List Nat}
    (h : walk t target fuel stack = .ok false) :
    ∀ d ∈ stack, ¬ Relation.ReflTransGen t.view.Sub d target := by
  induction fuel generalizing stack with
  | zero => cases h
  | succ fuel ih =>
    cases stack with
    | nil => simp
    | cons d stack =>
      unfold walk at h
      split at h
      · cases h
      next hne =>
      split at h
      · cases h
      split at h
      · cases h
      cases hsub : subdirs t (t.node d).entries with
      | error f =>
        rw [hsub] at h
        cases h
      | ok below =>
        rw [hsub, ok_bind] at h
        have hrec := ih h
        intro x hx
        rcases List.mem_cons.mp hx with rfl | hx
        · intro hpath
          rcases hpath.cases_head with heq | ⟨c, ⟨-, hc, e, he, rfl⟩, hpath⟩
          · exact hne heq
          · refine hrec e.inode (List.mem_append_left _ ?_) hpath
            exact List.mem_reverse.mpr (mem_subdirs hsub he hc)
        · exact hrec x (List.mem_append_right _ hx)

theorem loops_false {src dst id : Nat} (h : loops t src dst id = .ok false) (hne : src ≠ dst)
    (hd : (t.view.node id).isDir) : ¬ Relation.ReflTransGen t.view.Sub id dst := by
  unfold loops at h
  rw [if_neg hne] at h
  split at h
  · cases h
  · rw [if_pos (show (t.node id).isDir from hd)] at h
    exact walk_false h id List.mem_cons_self

/-- Making room for the new name. -/
theorem renameOverwrite_sat {dst id : Nat} {dn : String} (hpaged : Paged (t.node dst).pages) :
    Sat (renameOverwrite env ⟨t.node dst, (t.node dst).pages, []⟩ dn id).1 t
      (fun r t' => (r = none → t' = t ∧ ⟨dn, id⟩ ∈ (t.view.node dst).entries) ∧
        ∀ w, r = some w → ∃ old, Replaced t.view dst dn id old t'.view ∧
          w.Edits (t.node dst) old [] ∧ w.node = t.node dst ∧ w.find dn = none)
      (Undone t) := by
  unfold renameOverwrite
  cases hf : Work.find ⟨t.node dst, (t.node dst).pages, []⟩ dn with
  | none =>
    refine sat_pure ⟨by simp, ?_⟩
    rintro w ⟨⟩
    exact ⟨[], .absent (find_none_iff.mp hf), Work.edits_checkout hpaged, rfl, hf⟩
  | some old =>
    have hm := (find_some_iff hpaged).mp hf
    refine Within.sat_ite (fun h => sat_pure ⟨fun _ => ⟨rfl, h ▸ hm⟩, by simp⟩) (fun hne => ?_)
    refine sat_bind (getNode_sat old) ?_ (fun _ _ hf => undone_of_eq hf.1)
    rintro n t ⟨rfl, hid, rfl⟩
    refine sat_bind (dropLink_sat hid rfl) ?_ (fun _ _ => undone_of_panic)
    intro _ t₁ hview
    refine sat_pure ⟨by simp, ?_⟩
    rintro w ⟨⟩
    rw [hview]
    exact ⟨_, .dropped hm hne hid, (Work.edits_checkout hpaged).del hf, Work.del_node _ _,
      Work.find_del_self (w := ⟨t.node dst, (t.node dst).pages, []⟩) hpaged.distinct dn⟩

theorem Replaced.cap_eq {v v₁ : View} {dst id : Nat} {dn : String} {old : List DirEntry}
    (h : Replaced v dst dn id old v₁) : v₁.cap = v.cap := by
  cases h with
  | absent => rfl
  | dropped =>
    unfold View.drop
    dsimp only
    split <;> rfl

theorem touchMoved_sat (id : Nat) {E : Fault Fs.Error → State → Prop} :
    Sat (touchMoved env id).1 t (fun _ t' => t'.view = t.view) E := by
  unfold touchMoved
  refine sat_get_bind (Within.sat_ite (fun _ => sat_pure rfl) (fun h => ?_))
  refine sat_bind (now_sat (E := E)) ?_ (fun _ _ h => h)
  rintro c _ rfl
  refine (putNode_sat (t := { t with ticks := t.ticks + 1 }) _ (Nat.not_le.mp h)).mono ?_
    (fun _ _ h => h)
  rintro _ _ rfl
  rw [view_setNode]
  exact View.set_same rfl

theorem Replaced.find_moved {v v₁ : View} {n : Node} {src id : Nat} {sn dn : String}
    {old : List DirEntry} {w : Work} (hm : ⟨sn, id⟩ ∈ n.entries) (hr : Replaced v src dn id old v₁)
    (hw : w.Edits n old []) (hnone : w.find dn = none) : (w.add dn id).find sn = some id := by
  rw [Work.find_eq_some_iff (hw.add hnone id).distinct]
  refine (w.entries_add dn id).subset (List.mem_cons_of_mem _ ?_)
  rcases List.mem_append.mp (hw.perm.symm.subset hm) with hold | hmem
  · cases hr with
    | absent => cases hold
    | dropped _ hne =>
      cases List.mem_singleton.mp hold
      exact absurd rfl hne
  · exact hmem

theorem rename_sat (hl : env.Lawful) (h : Ready t handles) (src : Nat) (sn : String) (dst : Nat)
    (dn : String) :
    Sat (rename env src sn dst dn).1 t
      (fun _ t' => Change handles t.view (.rename src sn dst dn) .unit t'.view) (Undone t) := by
  unfold rename
  refine sat_bind (checkout_sat src) ?_ (fun _ _ => undone_of_eq)
  rintro w t ⟨rfl, hp, hsd, rfl⟩
  have hspaged := h.neat src hp hsd
  dsimp only
  cases hf : Work.find ⟨t.node src, (t.node src).pages, []⟩ sn with
  | none => exact sat_fail fun _ _ => rfl
  | some id =>
    have hm := (find_some_iff hspaged).mp hf
    have hids : ∀ e ∈ [(⟨dn, id⟩ : DirEntry)], e.inode < 2 ^ 64 := by
      intro e he
      rw [List.mem_singleton.mp he]
      obtain ⟨l, hl, he⟩ := List.mem_flatten.mp hm
      exact hspaged.ids l hl ⟨sn, id⟩ he
    refine Within.sat_ite (fun _ => sat_fail fun _ _ => rfl) (fun _ => ?_)
    refine sat_get_bind ?_
    dsimp only
    refine sat_bind (sat_ofExcept (Q := fun b t' => t' = t ∧ loops t src dst id = .ok b)
      (E := fun _ t' => t' = t) (fun _ h => ⟨rfl, h⟩) (fun _ _ => rfl)) ?_ (fun _ _ => undone_of_eq)
    rintro looped t ⟨rfl, hloops⟩
    refine Within.sat_ite (fun _ => sat_fail fun _ _ => rfl) (fun hfalse => ?_)
    rw [Bool.not_eq_true] at hfalse
    rw [hfalse] at hloops
    refine Within.sat_ite (fun heq => ?_) (fun hne => ?_)
    · subst heq
      refine sat_bind (renameOverwrite_sat hspaged) ?_ (fun _ _ h => h)
      rintro (_ | w) t₁ ⟨hstay, hgo⟩
      · obtain ⟨rfl, hmem⟩ := hstay rfl
        exact sat_pure (.stay hm hmem)
      · obtain ⟨old, hr, hw, hnode, hnone⟩ := hgo w rfl
        refine sat_bind (touchMoved_sat id (E := fun _ _ => False)) ?_ (fun _ _ => False.elim)
        intro _ t₂ hview₂
        have hcap : t₂.cap = t.cap := (congrArg View.cap hview₂).trans hr.cap_eq
        have hedits := (hw.add hnone id).del (hr.find_moved hm hw hnone)
        refine (flush_edits hl (by rw [hcap]; exact hp) hedits (by simp) hspaged hids).mono ?_
          (fun _ _ => undone_of_panic)
        rintro _ t₃ ⟨o', he, hview₃⟩
        rw [Work.del_node, Work.add_node, hnode] at he
        rw [hview₃, hview₂]
        exact .within hp hsd hm hr he
    · refine sat_bind (checkout_sat dst) ?_ (fun _ _ => undone_of_eq)
      rintro w t ⟨rfl, hq, hdd, rfl⟩
      have hdpaged := h.neat dst hq hdd
      refine sat_bind (renameOverwrite_sat hdpaged) ?_ (fun _ _ h => h)
      rintro (_ | w) t₁ ⟨hstay, hgo⟩
      · obtain ⟨rfl, hmem⟩ := hstay rfl
        exact sat_pure (.stay hm hmem)
      · obtain ⟨old, hr, hw, hnode, hnone⟩ := hgo w rfl
        refine sat_bind (touchMoved_sat id (E := fun _ _ => False)) ?_ (fun _ _ => False.elim)
        intro _ t₂ hview₂
        have hcap₂ : t₂.cap = t.cap := (congrArg View.cap hview₂).trans hr.cap_eq
        refine sat_bind (flush_edits hl (by rw [hcap₂]; exact hq) (hw.add hnone id)
          (by simp) hdpaged hids) ?_ (fun _ _ => undone_of_panic)
        rintro _ t₃ ⟨d', hed, hview₃⟩
        rw [Work.add_node, hnode] at hed
        have hcap₃ : t₃.cap = t.cap := (congrArg View.cap hview₃).trans hcap₂
        refine (flush_edits hl (by rw [hcap₃]; exact hp) ((Work.edits_checkout hspaged).del hf)
          (by simp) hspaged (by simp)).mono ?_ (fun _ _ => undone_of_panic)
        rintro _ t₄ ⟨s', hes, hview₄⟩
        rw [Work.del_node] at hes
        rw [hview₄, hview₃, hview₂]
        exact .across hne hp hsd hq hdd hm (loops_false hloops hne) hr hed hes

theorem regular_sat (id : Nat) :
    Sat (regular id).1 t
      (fun n t' => t' = t ∧ id < t.cap ∧ n = t.node id ∧ n.kind = Inode.typeRegular)
      (fun _ t' => t' = t) := by
  unfold regular
  refine sat_bind (getNode_sat id) ?_ (fun _ _ h => h.1)
  rintro n t ⟨rfl, hid, rfl⟩
  exact Within.sat_ite (fun _ => sat_fail rfl) (fun h => sat_pure ⟨rfl, hid, rfl, not_not.mp h⟩)

theorem openFile_sat (handles : List Handle) (id : Nat) :
    Sat (openFile id).1 t
      (fun r t' => r = ⟨id, false⟩ ∧ Change handles t.view (.openFile id) (.id id) t'.view)
      (Undone t) := by
  unfold openFile
  refine sat_bind (regular_sat id) ?_ (fun _ _ => undone_of_eq)
  rintro n t ⟨rfl, hid, rfl, hk⟩
  refine sat_get_bind (sat_bind (succ32_sat _) ?_ (fun _ _ => undone_of_panic))
  rintro c t ⟨rfl, rfl, hs⟩
  exact ⟨rfl, .openFile hid hk hs⟩

theorem close_sat (h : Ready t handles) {i : Nat} {hd : Handle} (hi : handles[i]? = some hd) :
    Sat (close hd).1 t (fun _ t' => Change handles t.view (.close i) .unit t'.view) (Undone t) := by
  unfold close
  refine Within.sat_ite (fun hc => ?_) (fun hc => ?_)
  · refine sat_pure (.quiet ?_)
    intro x hx
    rw [hi] at hx
    cases hx
    exact hc
  · refine sat_get_bind ?_
    refine sat_bind (update_sat (E := fun _ _ => False)) ?_ (fun _ _ => False.elim)
    rintro _ _ rfl
    have hid : hd.id < t.cap := h.handle_lt hd (List.mem_of_getElem? hi)
    have hclosed := Change.close (v := t.view) hi hc
    unfold View.close at hclosed
    refine Within.sat_ite (fun hz => ?_) (fun hz => ?_)
    · refine sat_bind (getNode_sat hd.id) ?_ (fun _ _ hf => absurd hid (Nat.not_lt.mpr hf.2))
      rintro n t' ⟨rfl, -, rfl⟩
      refine Within.sat_ite (fun hn => ?_) (fun hn => ?_)
      · refine (reclaim_sat (t := { t with
          opens := Function.update t.opens hd.id (pred32 (t.opens hd.id)) }) hid rfl).mono ?_
          (fun _ _ => undone_of_panic)
        intro _ t₁ hview
        dsimp only at hclosed
        rw [if_pos ⟨hz, hn⟩] at hclosed
        rw [hview]
        exact hclosed
      · dsimp only at hclosed
        rw [if_neg (fun hand => hn hand.2)] at hclosed
        exact sat_pure hclosed
    · dsimp only at hclosed
      rw [if_neg (fun hand => hz hand.1)] at hclosed
      exact sat_pure hclosed

/-! ## Calls that leave the view alone -/

/-- The call leaves the view as it was, whatever it returns. -/
def Still {α : Type} (x : Step α) : Prop := ∀ v, Keeps (fun t => t.view = v) x.1

section Still

variable {α β : Type} {x : Step α}

theorem still_pure (a : α) : Still (pure a) := fun _ => keeps_pure a

theorem still_fail (e : Fs.Error) : Still (Within.fail e : Step α) := fun _ => keeps_fail e

theorem still_bind {f : α → Step β} (hx : Still x) (hf : ∀ a, Still (f a)) : Still (x >>= f) :=
  fun v => keeps_bind (hx v) (fun a => hf a v)

theorem still_map {f : α → β} (hx : Still x) : Still (f <$> x) := by
  rw [← bind_pure_comp]
  exact still_bind hx fun _ => still_pure _

theorem still_ite {c : Prop} [Decidable c] {y : Step α} (hx : Still x) (hy : Still y) :
    Still (if c then x else y) := by
  split
  · exact hx
  · exact hy

theorem still_mapM {f : α → Step β} (hf : ∀ a, Still (f a)) (l : List α) : Still (l.mapM f) := by
  induction l with
  | nil => exact still_pure _
  | cons a l ih =>
    rw [List.mapM_cons]
    exact still_bind (hf a) fun _ => still_bind ih fun _ => still_pure _

theorem still_getNode (id : Nat) : Still (getNode id) := by
  intro v t ht
  refine (getNode_sat id).mono ?_ ?_
  · rintro _ _ ⟨rfl, -⟩
    exact ht
  · rintro _ _ ⟨rfl, -⟩
    exact ht

theorem still_checkout (id : Nat) : Still (checkout id) :=
  still_bind (still_getNode id) fun _ => still_ite (still_pure _) (still_fail _)

theorem still_listDir (id : Nat) : Still (listDir id) :=
  still_bind (still_checkout id) fun _ => still_pure _

theorem still_regular (id : Nat) : Still (regular id) :=
  still_bind (still_getNode id) fun _ => still_ite (still_fail _) (still_pure _)

theorem still_now : Still (now env) := fun _ _ h => h

theorem still_mutate (id : Nat) {f : Node → Node} (hf : ∀ n, (f n).outline = n.outline) :
    Still (mutate id f) := by
  intro v t ht
  refine sat_bind (getNode_sat id) ?_ (fun f t' h => h.1 ▸ ht)
  rintro n t ⟨rfl, hid, rfl⟩
  refine (putNode_sat _ hid).mono ?_ (fun _ _ h => h)
  rintro _ _ rfl
  rw [view_setNode, hf]
  exact (View.set_same rfl).trans ht

theorem still_chmod (id : Nat) (mode : UInt16) : Still (chmod env id mode) :=
  still_bind still_now fun _ => still_mutate id fun _ => rfl

theorem still_chown (id : Nat) (uid gid : UInt32) : Still (chown env id uid gid) :=
  still_bind still_now fun _ => still_mutate id fun _ => rfl

theorem still_utimes (id : Nat) (atime mtime : UInt64) : Still (utimes env id atime mtime) :=
  still_bind still_now fun _ => still_mutate id fun _ => rfl

end Still

theorem Still.change {op : Op} {x : Step Reply} (hx : Still x) (hq : Idle handles op) :
    Sat x.1 t (fun r t' => Change handles t.view op r t'.view) (Undone t) := by
  refine (hx t.view t rfl).mono ?_ (fun f t' h _ _ => h)
  intro r t' hview
  rw [hview]
  exact .quiet hq

theorem write_change {α : Type} {op : Op} {id : Nat} {f : Bytes → Bytes} {x : Node → Step α}
    {g : α → Reply} (hw : writes op = some (id, f))
    (hx : id < t.cap → Sat (x (t.node id)).1 t
      (fun a t' => g a = wrote (t.node id).data op ∧
        t'.view = t.view.set id { t.view.node id with data := f (t.node id).data })
      (fun f _ => f = .panic)) :
    Sat (g <$> (regular id >>= x) : Step Reply).1 t (fun r t' => Change handles t.view op r t'.view)
      (Undone t) := by
  refine sat_map (sat_bind (regular_sat id) ?_ (fun _ _ => undone_of_eq))
  rintro n t ⟨rfl, hid, rfl, hk⟩
  refine (hx hid).mono ?_ (fun _ _ => undone_of_panic)
  rintro a t' ⟨hr, hview⟩
  rw [hr, hview]
  exact .write hw hid hk

/-- The machine changes the view as the operation says, and not at all if it
returns an error. -/
theorem planOf_change (hl : env.Lawful) (h : Ready t handles) {op : Op} (hop : Answers op) :
    Sat (planOf env handles op).1 t (fun r t' => Change handles t.view op r t'.view)
    (Undone t) := by
  cases op with
  | lookup parent name =>
    exact (still_map (still_bind (still_checkout _) fun _ => still_pure _)).change trivial
  | readdir id =>
    exact (still_map (still_bind (still_listDir _) fun _ => still_pure _)).change trivial
  | readdirents id =>
    refine Still.change (still_map (still_bind (still_listDir _) fun _ => still_mapM
      (fun e => ?_) _)) trivial
    exact still_bind (still_getNode _) fun _ => still_pure _
  | openDirStream id =>
    exact (still_map (still_bind (still_listDir _) fun _ => still_pure _)).change trivial
  | stat id => exact (still_map (still_bind (still_getNode _) fun _ => still_pure _)).change trivial
  | statfs => exact hop.elim
  | fallocate id length => exact hop.elim
  | access id mask uid gid gids =>
    refine Still.change (still_map (still_bind (still_getNode _) fun n => ?_)) trivial
    refine still_ite (still_pure _) (still_ite (still_ite (still_fail _) (still_pure _)) ?_)
    exact still_ite (still_fail _) (still_pure _)
  | mkdir parent name =>
    refine sat_map ((createNode_sat hl h parent name _ _).mono ?_ (fun _ _ h => h))
    exact fun id t' hc => .create rfl hc.2
  | create parent name =>
    refine sat_map ((createNode_sat hl h parent name _ _).mono ?_ (fun _ _ h => h))
    exact fun id t' hc => .create rfl hc.2
  | symlink parent name target =>
    refine sat_map ((symlink_sat hl h parent name target).mono ?_ (fun _ _ h => h))
    exact fun id t' hc => .create rfl hc
  | readlink id =>
    refine Still.change (still_map (still_bind (still_getNode _) fun _ => ?_)) trivial
    exact still_ite (still_fail _) (still_pure _)
  | writeFile id data =>
    refine write_change rfl fun hid => (setData_sat _ _ hid).mono ?_ (fun _ _ h => h)
    exact fun _ t' hview => ⟨rfl, hview⟩
  | readFile id =>
    exact (still_map (still_bind (still_regular _) fun _ => still_pure _)).change trivial
  | readAt id off length =>
    refine Still.change (still_map (still_bind (still_regular _) fun _ => ?_)) trivial
    exact still_ite (still_pure _) (still_ite (fun _ => keeps_panic) (still_pure _))
  | writeAt id off data =>
    refine write_change rfl fun hid => (writeRange_sat _ off data hid rfl).mono ?_ (fun _ _ h => h)
    exact fun _ t' hview => ⟨rfl, hview⟩
  | append id data =>
    refine write_change rfl fun hid => sat_bind (writeRange_sat _ _ data hid rfl) ?_
      (fun _ _ h => h)
    exact fun _ t' hview => sat_pure ⟨rfl, hview⟩
  | truncate id newSize =>
    refine write_change rfl fun hid => Within.sat_ite (fun hsame => ?_) (fun hne => ?_)
    · refine sat_pure ⟨rfl, ?_⟩
      rw [if_pos hsame]
      exact (View.set_same rfl).symm
    · refine (setData_sat _ _ hid).mono ?_ (fun _ _ h => h)
      intro _ t' hview
      rw [if_neg hne]
      exact ⟨rfl, hview⟩
  | unlink parent name => exact sat_map (unlink_sat hl h parent name)
  | rmdir parent name => exact sat_map (rmdir_sat hl h parent name)
  | chmod id mode => exact Still.change (still_map (still_chmod id mode)) trivial
  | chown id uid gid => exact Still.change (still_map (still_chown id uid gid)) trivial
  | utimes id atime mtime => exact Still.change (still_map (still_utimes id atime mtime)) trivial
  | link parent name target => exact sat_map (link_sat hl h parent name target)
  | rename src sn dst dn => exact sat_map (rename_sat hl h src sn dst dn)
  | openFile id =>
    refine sat_map ((openFile_sat handles id).mono ?_ (fun _ _ h => h))
    rintro _ t' ⟨rfl, hc⟩
    exact hc
  | handleRead i =>
    rw [planOf]
    cases handles[i]? with
    | none => exact (still_pure _).change trivial
    | some hd =>
      exact (still_map (still_bind (still_getNode _) fun _ => still_pure _)).change trivial
  | close i =>
    rw [planOf]
    cases hi : handles[i]? with
    | none =>
      refine (still_pure _).change fun x hx => ?_
      rw [hi] at hx
      cases hx
    | some hd => exact sat_map (close_sat h hi)
  | commit => exact hop.elim
  | setDirCache on => exact (still_pure _).change trivial
  | remount key => exact hop.elim

end Machine

end Spec
end BloomFS
