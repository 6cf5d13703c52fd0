/-
The bitmap as the source stores it, in 64-bit words.

`Bitmap` has its bits as a function.  `Words` has the vector of words and the
operations that read and write one bit of a word, and `bitmap` forgets the words.
Each operation acts on the words as the operation of the same name acts on the
bits, so `Bitmap` is the whole behaviour of `Words`.

The cluster arithmetic of the source is in `u64`.  A range that ends past it is a
panic, which is `none` here.
-/
import BloomFS.Alloc.Bitmap
import BloomFS.Lib.Packed

namespace BloomFS
namespace Alloc

/-- The bit of a word that belongs to cluster `i`. -/
def mask (i : Nat) : BitVec 64 := 1#64 <<< (i % 64)

/-- One word for each 64 clusters, the last one possibly partial. -/
structure Words where
  words : List (BitVec 64)
  total : Nat
  used : Nat
  deferred : List FreeRange
  size : words.length = (total + 63) / 64
  total_lt : total < 2 ^ 64

namespace Words

theorem length_zeros (total : Nat) :
    (List.replicate ((total + 63) / 64) 0#64).length = (total + 63) / 64 :=
  List.length_replicate

def new (total : Nat) (h : total < 2 ^ 64) : Words where
  words := List.replicate ((total + 63) / 64) 0#64
  total := total
  used := 0
  deferred := []
  size := length_zeros total
  total_lt := h

def get (b : Words) (i : Nat) : Bool := (b.words.getD (i / 64) 0#64 &&& mask i) != 0#64

theorem length_modify_words (b : Words) (i : Nat) (f : BitVec 64 → BitVec 64) :
    (b.words.modify (i / 64) f).length = (b.total + 63) / 64 := by
  rw [List.length_modify, b.size]

def set (b : Words) (i : Nat) : Words :=
  { b with words := b.words.modify (i / 64) (· ||| mask i)
           size := b.length_modify_words i (· ||| mask i) }

def clr (b : Words) (i : Nat) : Words :=
  { b with words := b.words.modify (i / 64) (· &&& ~~~ mask i)
           size := b.length_modify_words i (· &&& ~~~ mask i) }

/-- Run `f` on the clusters of `[start, start + count)` that the device has. -/
def onSpan (b : Words) (start count : Nat) (f : Words → Nat → Words) : Option Words :=
  if 2 ^ 64 ≤ start + count then none
  else some ((List.range' start (min (start + count) b.total - start)).foldl f b)

def reserve (b : Words) (start count : Nat) : Option Words :=
  b.onSpan start count fun b i => if b.get i then b else { b.set i with used := b.used + 1 }

def free (b : Words) (start count : Nat) : Option Words :=
  b.onSpan start count fun b i => if b.get i then { b.clr i with used := b.used - 1 } else b

/-- The result and the bitmap that is left. -/
def alloc (b : Words) (count : Nat) : Except Error Nat × Words :=
  if count = 0 then (.error .zeroCount, b)
  else match Bitmap.scan b.get count b.total 0 0 0 with
    | none => (.error .noSpace, b)
    | some start =>
        (.ok start, { (List.range' start count).foldl set b with used := b.used + count })

def defer (b : Words) (start count : Nat) : Words :=
  { b with deferred := b.deferred ++ [⟨start, count⟩] }

def applyDeferred (b : Words) : Option Words :=
  b.deferred.foldlM (fun b r => b.free r.start r.count) { b with deferred := [] }

def bitmap (b : Words) : Bitmap := ⟨b.get, b.total, b.used, b.deferred⟩

/-! ## One bit of a word -/

theorem get_eq (b : Words) : b.get = Packed.bitAt fun w => b.words.getD w 0#64 :=
  funext fun i => Packed.and_bit _ i

theorem getD_modify (b : Words) {i : Nat} (hi : i < b.total) (f : BitVec 64 → BitVec 64) :
    (fun w => (b.words.modify (i / 64) f).getD w 0#64) =
      Function.update (fun w => b.words.getD w 0#64) (i / 64) (f (b.words.getD (i / 64) 0#64)) := by
  have hlt : i / 64 < b.words.length := by
    rw [b.size]
    omega
  funext w
  rw [List.getD_eq_getElem?_getD, List.getElem?_modify]
  by_cases hw : w = i / 64
  · subst hw
    rw [Function.update_self, List.getD_eq_getElem?_getD, List.getElem?_eq_getElem hlt]
    simp
  · rw [Function.update_of_ne hw, List.getD_eq_getElem?_getD]
    simp [Ne.symm hw]

theorem get_set (b : Words) {i : Nat} (hi : i < b.total) (j : Nat) :
    (b.set i).get j = Function.update b.get i true j := by
  have hwords := b.getD_modify hi (· ||| mask i)
  rw [get_eq, get_eq, ← Packed.bitAt_or_bit]
  exact congrFun (congrArg Packed.bitAt hwords) j

theorem get_clr (b : Words) {i : Nat} (hi : i < b.total) (j : Nat) :
    (b.clr i).get j = Function.update b.get i false j := by
  have hwords := b.getD_modify hi (· &&& ~~~ mask i)
  rw [get_eq, get_eq, ← Packed.bitAt_and_not_bit]
  exact congrFun (congrArg Packed.bitAt hwords) j

/-! ## Words and bits -/

theorem bitmap_new (total : Nat) (h : total < 2 ^ 64) :
    (new total h).bitmap = Bitmap.new total := by
  refine Bitmap.ext (funext fun i => ?_) rfl rfl rfl
  show (new total h).get i = false
  rw [get_eq, Packed.bitAt, List.getD_eq_getElem?_getD]
  show ((List.replicate ((total + 63) / 64) 0#64)[i / 64]?.getD 0#64).getLsbD (i % 64) = false
  rw [List.getElem?_replicate]
  split <;> simp

theorem bitmap_set (b : Words) {i : Nat} (hi : i < b.total) : (b.set i).bitmap = b.bitmap.set i :=
  Bitmap.ext (funext (b.get_set hi)) rfl rfl rfl

theorem bitmap_clr (b : Words) {i : Nat} (hi : i < b.total) : (b.clr i).bitmap = b.bitmap.clr i :=
  Bitmap.ext (funext (b.get_clr hi)) rfl rfl rfl

/-- A loop over clusters, given what its body does to one of them. -/
theorem bitmap_foldl {f : Words → Nat → Words} {g : Bitmap → Nat → Bitmap} {l : List Nat}
    (hf : ∀ (b : Words) (i : Nat), i < b.total → (f b i).bitmap = g b.bitmap i ∧
      (f b i).total = b.total) :
    ∀ b : Words, (∀ i ∈ l, i < b.total) →
      (l.foldl f b).bitmap = l.foldl g b.bitmap ∧ (l.foldl f b).total = b.total := by
  induction l with
  | nil =>
    intro b _
    exact ⟨rfl, rfl⟩
  | cons a l ih =>
    intro b hl
    obtain ⟨hbit, htot⟩ := hf b a (hl a List.mem_cons_self)
    have hrest : ∀ i ∈ l, i < (f b a).total := by
      intro i hi
      rw [htot]
      exact hl i (List.mem_cons_of_mem _ hi)
    obtain ⟨h1, h2⟩ := ih (f b a) hrest
    rw [hbit] at h1
    exact ⟨h1, h2.trans htot⟩

theorem bitmap_onSpan {f : Words → Nat → Words} {g : Bitmap → Nat → Bitmap}
    (hf : ∀ (b : Words) (i : Nat), i < b.total → (f b i).bitmap = g b.bitmap i ∧
      (f b i).total = b.total) (b : Words) {start count : Nat} (h : start + count < 2 ^ 64) :
    ∃ b', b.onSpan start count f = some b' ∧
        b'.bitmap = (b.bitmap.span start count).foldl g b.bitmap := by
  refine ⟨_, if_neg (by omega), ?_⟩
  have hspan : ∀ i ∈ b.bitmap.span start count, i < b.total := by
    intro i hi
    exact (Bitmap.mem_span.mp hi).2.2
  exact (bitmap_foldl hf b hspan).1

theorem reserve_refines (b : Words) {start count : Nat} (h : start + count < 2 ^ 64) :
    ∃ b', b.reserve start count = some b' ∧ b'.bitmap = b.bitmap.reserve start count := by
  apply bitmap_onSpan _ b h
  intro b i hi
  show _ = (if b.get i = true then _ else _) ∧ _
  by_cases hg : b.get i = true
  · rw [if_pos hg, if_pos hg]
    exact ⟨rfl, rfl⟩
  · rw [if_neg hg, if_neg hg, ← bitmap_set b hi]
    exact ⟨rfl, rfl⟩

theorem free_refines (b : Words) {start count : Nat} (h : start + count < 2 ^ 64) :
    ∃ b', b.free start count = some b' ∧ b'.bitmap = b.bitmap.free start count := by
  apply bitmap_onSpan _ b h
  intro b i hi
  show _ = (if b.get i = true then _ else _) ∧ _
  by_cases hg : b.get i = true
  · rw [if_pos hg, if_pos hg, ← bitmap_clr b hi]
    exact ⟨rfl, rfl⟩
  · rw [if_neg hg, if_neg hg]
    exact ⟨rfl, rfl⟩

theorem applyDeferred_refines (b : Words) (h : ∀ r ∈ b.deferred, r.start + r.count < 2 ^ 64) :
    ∃ b', b.applyDeferred = some b' ∧ b'.bitmap = b.bitmap.applyDeferred := by
  have hloop : ∀ (rs : List FreeRange) (b : Words), (∀ r ∈ rs, r.start + r.count < 2 ^ 64) →
      ∃ b', rs.foldlM (fun b r => b.free r.start r.count) b = some b' ∧
        b'.bitmap = rs.foldl (fun b r => b.free r.start r.count) b.bitmap := by
    intro rs
    induction rs with
    | nil =>
      intro b _
      exact ⟨b, rfl, rfl⟩
    | cons r rs ih =>
      intro b hrs
      obtain ⟨b₁, hfree, hbit⟩ := b.free_refines (hrs r List.mem_cons_self)
      obtain ⟨b', hrun, hbit'⟩ := ih b₁ fun r' hr' => hrs r' (List.mem_cons_of_mem _ hr')
      refine ⟨b', ?_, ?_⟩
      · rw [List.foldlM_cons, hfree]
        exact hrun
      · rw [hbit', hbit, List.foldl_cons]
  exact hloop b.deferred { b with deferred := [] } h

theorem alloc_error (b : Words) {count : Nat} {e : Error} (h : b.bitmap.alloc count = .error e) :
    b.alloc count = (.error e, b) := by
  unfold Bitmap.alloc at h
  unfold alloc
  by_cases h0 : count = 0
  · rw [if_pos h0] at h ⊢
    cases h
    rfl
  · rw [if_neg h0] at h ⊢
    change (match Bitmap.scan b.get count b.total 0 0 0 with
      | none => _
      | some start => _) = _ at h
    cases hs : Bitmap.scan b.get count b.total 0 0 0 with
    | none =>
      rw [hs] at h
      cases h
      rfl
    | some start =>
      rw [hs] at h
      cases h

theorem alloc_ok (b : Words) {count start : Nat} {m : Bitmap}
    (h : b.bitmap.alloc count = .ok (start, m)) :
    ∃ b', b.alloc count = (.ok start, b') ∧ b'.bitmap = m := by
  have hrun := (Bitmap.alloc_ok h).2.1
  unfold Bitmap.alloc at h
  unfold alloc
  by_cases h0 : count = 0
  · rw [if_pos h0] at h
    cases h
  · rw [if_neg h0] at h ⊢
    change (match Bitmap.scan b.get count b.total 0 0 0 with
      | none => _
      | some start => _) = _ at h
    cases hs : Bitmap.scan b.get count b.total 0 0 0 with
    | none =>
      rw [hs] at h
      cases h
    | some s =>
      rw [hs] at h
      cases h
      have hin : ∀ i ∈ List.range' start count, i < b.total := by
        intro i hi
        rw [List.mem_range'_1] at hi
        exact Nat.lt_of_lt_of_le hi.2 hrun.1
      have hset := (bitmap_foldl (fun b i hi => ⟨bitmap_set b hi, rfl⟩) b hin).1
      refine ⟨_, rfl, ?_⟩
      rw [← hset]
      rfl

/-! ## Sequences of operations -/

inductive Call where
  | reserve (start count : Nat)
  | alloc (count : Nat)
  | free (start count : Nat)
  | defer (start count : Nat)
  | applyDeferred
  deriving Repr, DecidableEq

/-- The clusters a call names are clusters of the device. -/
def Call.InRange (total : Nat) : Call → Prop
  | .reserve start count | .free start count | .defer start count => start + count ≤ total
  | .alloc _ | .applyDeferred => True

def call (b : Words) : Call → Option Words
  | .reserve start count => b.reserve start count
  | .alloc count => some (b.alloc count).2
  | .free start count => b.free start count
  | .defer start count => some (b.defer start count)
  | .applyDeferred => b.applyDeferred

def calls (b : Words) (cs : List Call) : Option Words := cs.foldlM call b

end Words

namespace Bitmap

/-- The counter agrees with the bits, no bit past the end is set, and every
deferred range lies on the device. -/
structure Sound (b : Bitmap) : Prop where
  counted : b.used = setBits b.bits b.total
  past : ∀ i, b.total ≤ i → b.bits i = false
  deferred : ∀ r ∈ b.deferred, r.start + r.count ≤ b.total

variable {b : Bitmap}

theorem sound_new (total : Nat) : (new total).Sound where
  counted := new_counted total
  past _ _ := rfl
  deferred := by simp [new]

theorem Sound.reserve (h : b.Sound) (start count : Nat) : (b.reserve start count).Sound := by
  obtain ⟨htot, hdef, hcnt, hbits⟩ := reserve_spec h.counted start count
  refine ⟨hcnt, fun i hi => ?_, ?_⟩
  · rw [htot] at hi
    rw [hbits, h.past i hi]
    simp [Nat.not_lt.mpr hi]
  · rw [htot, hdef]
    exact h.deferred

theorem Sound.free (h : b.Sound) (start count : Nat) : (b.free start count).Sound := by
  obtain ⟨htot, hdef, hcnt, hbits⟩ := free_spec h.counted start count
  refine ⟨hcnt, fun i hi => ?_, ?_⟩
  · rw [htot] at hi
    rw [hbits, h.past i hi, Bool.false_and]
  · rw [htot, hdef]
    exact h.deferred

theorem Sound.alloc {b' : Bitmap} {count start : Nat} (h : b.Sound)
    (ha : b.alloc count = .ok (start, b')) : b'.Sound := by
  obtain ⟨-, hrun, -, htot, hdef, -, hbits⟩ := alloc_ok ha
  refine ⟨alloc_counted h.counted ha, fun i hi => ?_, ?_⟩
  · rw [htot] at hi
    have hout : ¬ (start ≤ i ∧ i < start + count) := by
      have := hrun.1
      omega
    rw [hbits, h.past i hi]
    simp [hout]
  · rw [htot, hdef]
    exact h.deferred

theorem Sound.defer (h : b.Sound) {start count : Nat} (hr : start + count ≤ b.total) :
    (b.defer start count).Sound where
  counted := h.counted
  past := h.past
  deferred r hmem := by
    rcases List.mem_append.mp hmem with hold | hnew
    · exact h.deferred r hold
    · rw [List.mem_singleton.mp hnew]
      exact hr

theorem Sound.applyDeferred (h : b.Sound) : b.applyDeferred.Sound := by
  obtain ⟨htot, hdef, hcnt, hbits⟩ := applyDeferred_spec h.counted
  refine ⟨hcnt, fun i hi => ?_, ?_⟩
  · rw [htot] at hi
    have hclear := h.past i hi
    cases hb : b.applyDeferred.bits i with
    | false => rfl
    | true =>
      rw [(hbits i).mp hb |>.1] at hclear
      exact hclear
  · rw [hdef]
    simp

end Bitmap

namespace Words

variable {b : Words}

/-- A call in range returns, keeps the device size and keeps the bitmap sound. -/
theorem call_sound (h : b.bitmap.Sound) {c : Call} (hc : c.InRange b.total) :
    ∃ b', b.call c = some b' ∧ b'.bitmap.Sound ∧ b'.total = b.total := by
  have hlt := b.total_lt
  cases c with
  | reserve start count =>
    have hc : start + count ≤ b.total := hc
    obtain ⟨b', hrun, hbit⟩ := b.reserve_refines (show start + count < 2 ^ 64 by omega)
    have htot := (Bitmap.reserve_spec h.counted start count).1
    rw [← hbit] at htot
    have hs := h.reserve start count
    rw [← hbit] at hs
    exact ⟨b', hrun, hs, htot⟩
  | alloc count =>
    cases ha : b.bitmap.alloc count with
    | error e =>
      refine ⟨_, rfl, ?_, ?_⟩ <;> rw [b.alloc_error ha]
      exact h
    | ok r =>
      obtain ⟨start, m⟩ := r
      obtain ⟨b', hrun, hbit⟩ := b.alloc_ok ha
      have htot := (Bitmap.alloc_ok ha).2.2.2.1
      refine ⟨_, rfl, ?_, ?_⟩ <;> rw [hrun]
      · show b'.bitmap.Sound
        rw [hbit]
        exact h.alloc ha
      · rw [← hbit] at htot
        exact htot
  | free start count =>
    have hc : start + count ≤ b.total := hc
    obtain ⟨b', hrun, hbit⟩ := b.free_refines (show start + count < 2 ^ 64 by omega)
    have htot := (Bitmap.free_spec h.counted start count).1
    rw [← hbit] at htot
    have hs := h.free start count
    rw [← hbit] at hs
    exact ⟨b', hrun, hs, htot⟩
  | defer start count => exact ⟨_, rfl, h.defer hc, rfl⟩
  | applyDeferred =>
    have hin : ∀ r ∈ b.deferred, r.start + r.count < 2 ^ 64 := by
      intro r hr
      have : r.start + r.count ≤ b.total := h.deferred r hr
      omega
    obtain ⟨b', hrun, hbit⟩ := b.applyDeferred_refines hin
    have htot := (Bitmap.applyDeferred_spec h.counted).1
    rw [← hbit] at htot
    have hs := h.applyDeferred
    rw [← hbit] at hs
    exact ⟨b', hrun, hs, htot⟩

/-- So do whole sequences. -/
theorem calls_sound {cs : List Call} :
    ∀ b : Words, b.bitmap.Sound → (∀ c ∈ cs, c.InRange b.total) →
      ∃ b', b.calls cs = some b' ∧ b'.bitmap.Sound ∧ b'.total = b.total := by
  induction cs with
  | nil =>
    intro b h _
    exact ⟨b, rfl, h, rfl⟩
  | cons c cs ih =>
    intro b h hcs
    obtain ⟨b₁, hcall, hs, htot⟩ := call_sound h (hcs c List.mem_cons_self)
    have hrest : ∀ c ∈ cs, c.InRange b₁.total := by
      intro c hc
      rw [htot]
      exact hcs c (List.mem_cons_of_mem _ hc)
    obtain ⟨b', hrun, hs', htot'⟩ := ih b₁ hs hrest
    refine ⟨b', ?_, hs', htot'.trans htot⟩
    unfold calls
    rw [List.foldlM_cons, hcall]
    exact hrun

/-- The clusters `[s, s + count)` are free clusters of the device. -/
def Run (b : Words) (count s : Nat) : Prop :=
  s + count ≤ b.total ∧ ∀ i, s ≤ i → i < s + count → b.get i = false

/-- `alloc` takes the first run that is long enough, and marks that run and nothing
else; without such a run it changes nothing.  Along every sequence of calls in
range the counter is the number of set bits and no bit past the end is set. -/
theorem alloc_first_fit :
    (∀ (b : Words) (count : Nat), 0 < count →
      ((∃ s, (b.alloc count).1 = .ok s) ↔ ∃ s, b.Run count s) ∧
      (∀ s, (b.alloc count).1 = .ok s →
        b.Run count s ∧ (∀ s', b.Run count s' → s ≤ s') ∧
        (∀ i, (b.alloc count).2.get i = true ↔ b.get i = true ∨ s ≤ i ∧ i < s + count) ∧
        (b.alloc count).2.used = b.used + count ∧
        (b.alloc count).2.total = b.total ∧ (b.alloc count).2.deferred = b.deferred) ∧
      ((∀ s, ¬ b.Run count s) → b.alloc count = (.error .noSpace, b))) ∧
    ∀ (total : Nat) (h : total < 2 ^ 64) (cs : List Call), (∀ c ∈ cs, c.InRange total) →
      ∃ b', (new total h).calls cs = some b' ∧ b'.total = total ∧
        b'.used = Bitmap.setBits b'.get total ∧ ∀ i, total ≤ i → b'.get i = false := by
  constructor
  · intro b count hpos
    cases ha : b.bitmap.alloc count with
    | error e =>
      obtain ⟨he, hnone⟩ := Bitmap.alloc_error (Nat.ne_of_gt hpos) ha
      subst he
      rw [b.alloc_error ha]
      refine ⟨⟨?_, ?_⟩, ?_, ?_⟩
      · rintro ⟨s, hs⟩
        cases hs
      · rintro ⟨s, hs⟩
        exact absurd hs (hnone s)
      · intro s hs
        cases hs
      · intro _
        rfl
    | ok r =>
      obtain ⟨start, m⟩ := r
      obtain ⟨-, hrun, hfirst, htot, hdef, hused, hbits⟩ := Bitmap.alloc_ok ha
      obtain ⟨b', hb', hm⟩ := b.alloc_ok ha
      subst hm
      rw [hb']
      refine ⟨⟨fun _ => ⟨start, hrun⟩, fun _ => ⟨start, rfl⟩⟩, ?_,
        fun hnone => absurd hrun (hnone start)⟩
      intro s hs
      cases hs
      refine ⟨hrun, fun s' hs' => ?_, fun i => ?_, hused, htot, hdef⟩
      · by_contra hlt
        exact hfirst s' (by omega) hs'
      · have hget : b'.get i = (b.get i || decide (start ≤ i ∧ i < start + count)) := hbits i
        rw [hget]
        simp
  · intro total h cs hcs
    have hnew : (new total h).bitmap.Sound := by
      rw [bitmap_new]
      exact Bitmap.sound_new total
    obtain ⟨b', hrun, hs, htot⟩ := calls_sound _ hnew hcs
    have htot : b'.total = total := htot
    have hcnt : b'.used = Bitmap.setBits b'.get b'.total := hs.counted
    have hpast : ∀ i, b'.total ≤ i → b'.get i = false := hs.past
    rw [htot] at hcnt hpast
    exact ⟨b', hrun, htot, hcnt, hpast⟩

/-- A run over a word boundary, given back and taken again in part. -/
theorem alloc_first_fit_words : ∃ h : 130 < 2 ^ 64,
    ((new 130 h).alloc 70).1 = .ok 0 ∧
    ((new 130 h).alloc 70).2.used = (new 130 h).used + 70 ∧
    ∃ b', (new 130 h).calls [.reserve 0 3, .alloc 70, .defer 3 70, .alloc 2, .applyDeferred,
        .alloc 5, .free 3 1] = some b' ∧ b'.total = 130 ∧
      b'.used = Bitmap.setBits b'.get 130 ∧ ∀ i, 130 ≤ i → b'.get i = false := by
  have h : 130 < 2 ^ 64 := by decide
  have ha : ((new 130 (by decide)).alloc 70).1 = .ok 0 := by decide
  have hfit := (alloc_first_fit.1 (new 130 h) 70 (by decide)).2.1 0 ha
  refine ⟨h, ha, hfit.2.2.2.1, alloc_first_fit.2 130 h _ ?_⟩
  simp [Call.InRange]

end Words

end Alloc
end BloomFS
