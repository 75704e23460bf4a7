/-
  Lox.Proofs.Variables

  Reading and writing of variables, by name and by distance.

    * `Store.Built` — the stores that come of making frames and of binding and writing names
      in them;
    * `Store.Nearest` — of the frames from a frame outward the first one that has a name;
    * `Store.Sets` — the value of one name in one frame is set, and nothing else;
    * `Store.WritesNearest` — writing a name succeeds where reading it does, in the nearest
      frame that has it, and is seen from where that frame is the nearest one;
    * `Store.WritesAt` — so for the frame at a distance, where the name need not be there;
    * `Store.name_and_distance_laws` — both hold in all these stores.

  Reading and writing go through the frames in recursions of their own.  Here both are
  led back to the path of frames.
-/
import Lox.Proofs.Paths

namespace Lox

namespace Store

/-! ## Stores -/

/-- What comes of making frames, outermost or inside others, and of binding and writing
    names in them.  An operation that fails leaves the store. -/
inductive Built : Store → Prop
  | empty : Built empty
  | root {s : Store} : s.Built → Built (s.newFrame ⟨.empty, none⟩).2
  | child {s : Store} {f : FrameId} : s.Built → f < s.frames.size → Built (s.child f).2
  | define {s : Store} {f : FrameId} (name : String) (v : Value) : s.Built → f < s.frames.size →
      Built (s.define f name v)
  | assign {s t : Store} {f : FrameId} {name : Lexeme} {v : Value} : s.Built →
      f < s.frames.size → s.assign f name v = .ok t → Built t
  | assignAt {s t : Store} {f : FrameId} {d : Nat} {name : Lexeme} {v : Value} : s.Built →
      f < s.frames.size → s.assignAt f d name v = .ok t → Built t

/-- Of the frames from `f` outward, `g` is the first one that has the name. -/
def Nearest (s : Store) (name : String) (f g : FrameId) : Prop :=
  ∃ inner outer, s.Path f (inner ++ g :: outer) ∧ (∀ h ∈ inner, s.own? h name = none) ∧
    (s.own? g name).isSome

/-- In `t` the name has the value in the frame `g`, and all else is as in `s`. -/
structure Sets (s : Store) (g : FrameId) (name : String) (v : Value) (t : Store) : Prop where
  here : t.own? g name = some v
  elsewhere : ∀ h other, ¬(h = g ∧ other = name) → t.own? h other = s.own? h other
  links : ∀ h, t.parent? h = s.parent? h
  size : t.frames.size = s.frames.size
  instances : t.instances = s.instances
  nextStamp : t.nextStamp = s.nextStamp

/-- A name is written where it is read, and no frame gets a name that it did not have. -/
structure WritesNearest (s : Store) (f : FrameId) (name : Lexeme) (v : Value) : Prop where
  succeeds : (∃ t, s.assign f name v = .ok t) ↔ ∃ w, s.get f name = .ok w
  fails : ∀ e, s.assign f name v = .error e ↔ s.get f name = .error e
  writes : ∀ t, s.assign f name v = .ok t → t.Built ∧ ∃ g, s.Nearest name.text f g ∧
    s.Sets g name.text v t ∧
    (∀ h other, (t.own? h other).isSome = (s.own? h other).isSome) ∧
    (∀ h (use : Lexeme), use.text = name.text → s.Nearest name.text h g → t.get h use = .ok v) ∧
    (∀ h (use : Lexeme), ¬(use.text = name.text ∧ s.Nearest name.text h g) →
      t.get h use = s.get h use) ∧
    ∀ h d (use : Lexeme), ¬(use.text = name.text ∧ s.ancestor? h d = some g) →
      t.getAt h d use = s.getAt h d use ∧ t.namedAt? h d use.text = s.namedAt? h d use.text

/-- A name is written in the frame at a distance, if there is one. -/
structure WritesAt (s : Store) (f : FrameId) (d : Nat) (name : Lexeme) (v : Value) : Prop where
  succeeds : (∃ t, s.assignAt f d name v = .ok t) ↔ ∃ path, s.Path f path ∧ d < path.length
  fails : ∀ e, s.assignAt f d name v = .error e → e = undefined name
  writes : ∀ t, s.assignAt f d name v = .ok t → t.Built ∧
    ∃ path g, s.Path f path ∧ path[d]? = some g ∧ s.Sets g name.text v t ∧
      t.getAt f d name = .ok v ∧ t.namedAt? f d name.text = some v
  reads : (∃ w, s.getAt f d name = .ok w) ↔
    ∃ path g, s.Path f path ∧ path[d]? = some g ∧ (s.own? g name.text).isSome

variable {s t : Store} {f g h : FrameId} {name : String} {v w : Value}

/-! ## Links -/

theorem lt_size_of_parent? (hlink : s.parent? f = some g) : f < s.frames.size := by
  unfold parent? at hlink
  split at hlink
  · next frame hframe => exact (Array.getElem?_eq_some_iff.mp hframe).1
  · cases hlink

theorem LinksDown.define (hs : s.LinksDown) (f : FrameId) (name : String) (v : Value) :
    (s.define f name v).LinksDown := by
  intro g h hlink
  rw [parent?_define] at hlink
  exact hs hlink

theorem LinksDown.newFrame (hs : s.LinksDown) {frame : Frame}
    (hparent : ∀ g, frame.parent = some g → g < s.frames.size) :
    (s.newFrame frame).2.LinksDown := by
  intro f g hlink
  by_cases hf : f = s.frames.size
  · subst hf
    rw [parent?_newFrame_self] at hlink
    exact hparent g hlink
  · rw [parent?_newFrame_of_ne _ _ hf] at hlink
    exact hs hlink

theorem assign_eq_ok {name : Lexeme} (hassign : s.assign f name v = .ok t) :
    ∃ g, s.owner? name.text f = some g ∧ t = s.define g name.text v := by
  unfold assign at hassign
  split at hassign
  · next g hg =>
    cases hassign
    exact ⟨g, hg, rfl⟩
  · cases hassign

theorem assignAt_eq_ok {d : Nat} {name : Lexeme} (hassign : s.assignAt f d name v = .ok t) :
    ∃ g, s.ancestor? f d = some g ∧ t = s.define g name.text v := by
  unfold assignAt at hassign
  split at hassign
  · next g hg =>
    cases hassign
    exact ⟨g, hg, rfl⟩
  · cases hassign

/-- No operation makes a link to a newer frame. -/
theorem Built.linksDown (hs : s.Built) : s.LinksDown := by
  induction hs with
  | empty =>
    intro f g hlink
    have hf : f < 1 := lt_size_of_parent? hlink
    rw [Nat.lt_one_iff.mp hf] at hlink
    cases hlink
  | root _ ih => exact ih.newFrame nofun
  | child _ hf ih =>
    refine ih.newFrame fun g hg => ?_
    cases hg
    exact hf
  | define name v _ _ ih => exact ih.define _ name v
  | assign _ _ hassign ih =>
    obtain ⟨g, -, rfl⟩ := assign_eq_ok hassign
    exact ih.define g _ _
  | assignAt _ _ hassign ih =>
    obtain ⟨g, -, rfl⟩ := assignAt_eq_ok hassign
    exact ih.define g _ _

/-! ## The nearest frame -/

theorem nearest_iff (hs : s.LinksDown) : s.Nearest name f g ↔ s.owner? name f = some g := by
  constructor
  · rintro ⟨inner, outer, hpath, hinner, hg⟩
    rw [hpath.owner? hs, List.find?_eq_some_iff_append]
    exact ⟨hg, inner, outer, rfl, fun h hh => by simp [hinner h hh]⟩
  · intro howner
    obtain ⟨path, hpath⟩ := hs.exists_path f
    rw [hpath.owner? hs, List.find?_eq_some_iff_append] at howner
    obtain ⟨hg, inner, outer, rfl, hinner⟩ := howner
    exact ⟨inner, outer, hpath, fun h hh => by simpa using hinner h hh, hg⟩

/-- The frame that is found has the name. -/
theorem isSome_of_owner? (hs : s.LinksDown) (howner : s.owner? name f = some g) :
    (s.own? g name).isSome := by
  obtain ⟨_, _, _, _, hg⟩ := (nearest_iff hs).mpr howner
  exact hg

theorem lt_size_of_own? (hg : (s.own? g name).isSome) : g < s.frames.size := by
  unfold own? at hg
  split at hg
  · next frame hframe => exact (Array.getElem?_eq_some_iff.mp hframe).1
  · cases hg

/-- A frame some links out is a frame of the store. -/
theorem lt_size_of_ancestor? (hs : s.LinksDown) (hf : f < s.frames.size) {d : Nat}
    (hg : s.ancestor? f d = some g) : g < s.frames.size := by
  obtain ⟨path, hpath⟩ := hs.exists_path f
  rw [hpath.ancestor?] at hg
  exact Nat.lt_of_le_of_lt (hpath.le hs g (List.mem_of_getElem? hg)) hf

/-- Where the same frames have a name, the same one is found for it. -/
theorem owner?_congr (hs : s.LinksDown) (ht : t.LinksDown)
    (hlinks : ∀ f, t.parent? f = s.parent? f)
    (hown : ∀ f, (t.own? f name).isSome = (s.own? f name).isSome) (f : FrameId) :
    t.owner? name f = s.owner? name f := by
  obtain ⟨path, hpath⟩ := hs.exists_path f
  have hpath' : t.Path f path := by
    induction hpath with
    | top hlink => exact .top ((hlinks _).trans hlink)
    | link hlink _ ih => exact .link ((hlinks _).trans hlink) ih
  rw [hpath.owner? hs, hpath'.owner? ht]
  simp only [hown]

/-! ## Writing -/

theorem sets_define (hg : g < s.frames.size) (name : String) (v : Value) :
    s.Sets g name v (s.define g name v) := by
  refine ⟨?_, fun h other hother => ?_, fun h => s.parent?_define g h name v, s.size_define g name v,
    rfl, rfl⟩
  · rw [own?_define_eq, if_pos ⟨rfl, rfl, hg⟩]
  · rw [own?_define_eq, if_neg fun hall => hother ⟨hall.1, hall.2.1⟩]

/-- A value that takes the place of another one changes no frame that has a name. -/
theorem Sets.isSome (hset : s.Sets g name v t) (hg : (s.own? g name).isSome) (h : FrameId)
    (other : String) : (t.own? h other).isSome = (s.own? h other).isSome := by
  by_cases hhere : h = g ∧ other = name
  · obtain ⟨rfl, rfl⟩ := hhere
    rw [hset.here, hg]
    rfl
  · rw [hset.elsewhere h other hhere]

theorem Sets.ancestor? (hset : s.Sets g name v t) (h : FrameId) (d : Nat) :
    t.ancestor? h d = s.ancestor? h d := ancestor?_congr hset.links h d

/-- Looking up by distance sees what was set from where its frame is that far out. -/
theorem Sets.namedAt?_of_ne (hset : s.Sets g name v t) {d : Nat} {other : String}
    (hne : ¬(other = name ∧ s.ancestor? h d = some g)) :
    t.namedAt? h d other = s.namedAt? h d other := by
  rw [namedAt?, namedAt?, hset.ancestor?]
  cases hfound : s.ancestor? h d with
  | none => rfl
  | some frame =>
    refine hset.elsewhere frame other fun hhere => hne ⟨hhere.2, ?_⟩
    rw [hfound, hhere.1]

theorem get_eq (s : Store) (f : FrameId) (name : Lexeme) :
    s.get f name = match (s.owner? name.text f).bind (s.own? · name.text) with
      | some v => .ok v
      | none => .error (undefined name) := rfl

theorem getAt_eq (s : Store) (f : FrameId) (d : Nat) (name : Lexeme) :
    s.getAt f d name = match s.namedAt? f d name.text with
      | some v => .ok v
      | none => .error (undefined name) := rfl

theorem assignAt_eq (s : Store) (f : FrameId) (d : Nat) (name : Lexeme) (v : Value) :
    s.assignAt f d name v = match s.ancestor? f d with
      | some g => .ok (s.define g name.text v)
      | none => .error (undefined name) := rfl

/-- Reading a name either finds it in a frame, which is where it is written, or fails as
    writing does. -/
theorem get_cases (hs : s.LinksDown) (f : FrameId) (name : Lexeme) (v : Value) :
    (∃ g w, s.owner? name.text f = some g ∧ s.own? g name.text = some w ∧
      s.get f name = .ok w ∧ s.assign f name v = .ok (s.define g name.text v)) ∨
    s.get f name = .error (undefined name) ∧ s.assign f name v = .error (undefined name) := by
  rw [get_eq, assign]
  cases howner : s.owner? name.text f with
  | none => exact .inr ⟨rfl, rfl⟩
  | some g =>
    obtain ⟨w, hw⟩ := Option.isSome_iff_exists.mp (isSome_of_owner? hs howner)
    refine .inl ⟨g, w, rfl, hw, ?_, rfl⟩
    rw [Option.bind_some, hw]

/-- Writing a name where it is found is seen from where that frame is the nearest one. -/
theorem get_define (hs : s.LinksDown) (hg : (s.own? g name).isSome) (h : FrameId) (use : Lexeme) :
    (s.define g name v).get h use =
      if use.text = name ∧ s.owner? name h = some g then .ok v else s.get h use := by
  have hset := sets_define (lt_size_of_own? hg) name v
  have howner := owner?_congr hs (hs.define g name v) hset.links
    (fun f => hset.isSome hg f use.text) h
  rw [get_eq, get_eq, howner]
  by_cases hhere : use.text = name ∧ s.owner? name h = some g
  · rw [if_pos hhere, hhere.1, hhere.2, Option.bind_some, hset.here]
  · rw [if_neg hhere]
    cases hfound : s.owner? use.text h with
    | none => rfl
    | some frame =>
      -- The name that is found in the frame is another one, or the frame is.
      have hother : ¬(frame = g ∧ use.text = name) := by
        rintro ⟨rfl, hname⟩
        exact hhere ⟨hname, hname ▸ hfound⟩
      rw [Option.bind_some, Option.bind_some, hset.elsewhere frame use.text hother]

theorem Built.writesNearest (hs : s.Built) (hf : f < s.frames.size) (name : Lexeme) (v : Value) :
    s.WritesNearest f name v := by
  have hdown := hs.linksDown
  refine ⟨?_, fun e => ?_, fun t hassign => ⟨.assign hs hf hassign, ?_⟩⟩
  · rcases get_cases hdown f name v with ⟨g, w, -, -, hget, hassign⟩ | ⟨hget, hassign⟩
    · exact ⟨fun _ => ⟨w, hget⟩, fun _ => ⟨_, hassign⟩⟩
    · rw [hget, hassign]
      exact ⟨nofun, nofun⟩
  · rcases get_cases hdown f name v with ⟨g, w, -, -, hget, hassign⟩ | ⟨hget, hassign⟩
    · rw [hget, hassign]
      exact ⟨nofun, nofun⟩
    · rw [hget, hassign, Except.error.injEq, Except.error.injEq]
  · obtain ⟨g, howner, rfl⟩ := assign_eq_ok hassign
    have hg := isSome_of_owner? hdown howner
    have hset := sets_define (lt_size_of_own? hg) name.text v
    refine ⟨g, (nearest_iff hdown).mpr howner, hset, hset.isSome hg, ?_, ?_, ?_⟩
    · intro h use huse hnearest
      rw [get_define hdown hg, if_pos ⟨huse, (nearest_iff hdown).mp hnearest⟩]
    · intro h use hnot
      rw [get_define hdown hg, if_neg]
      exact fun hhere => hnot ⟨hhere.1, (nearest_iff hdown).mpr hhere.2⟩
    · intro h d use hnot
      have hnamed := hset.namedAt?_of_ne hnot
      refine ⟨?_, hnamed⟩
      rw [getAt_eq, getAt_eq, hnamed]

theorem Built.writesAt (hs : s.Built) (hf : f < s.frames.size) (d : Nat) (name : Lexeme)
    (v : Value) : s.WritesAt f d name v := by
  have hdown := hs.linksDown
  obtain ⟨path, hpath⟩ := hdown.exists_path f
  have hancestor := hpath.ancestor? d
  refine ⟨⟨?_, ?_⟩, fun e herror => ?_, fun t hassign => ⟨.assignAt hs hf hassign, ?_⟩, ⟨?_, ?_⟩⟩
  · rintro ⟨t, hassign⟩
    obtain ⟨g, hg, -⟩ := assignAt_eq_ok hassign
    exact ⟨path, hpath, (List.getElem?_eq_some_iff.mp (hancestor.symm.trans hg)).1⟩
  · rintro ⟨path', hpath', hd⟩
    have hg := (hpath'.ancestor? d).trans (List.getElem?_eq_getElem hd)
    exact ⟨s.define path'[d] name.text v, by rw [assignAt_eq, hg]⟩
  · rw [assignAt_eq] at herror
    split at herror
    · cases herror
    · cases herror
      rfl
  · obtain ⟨g, hg, rfl⟩ := assignAt_eq_ok hassign
    have hset := sets_define (lt_size_of_ancestor? hdown hf hg) name.text v
    have hnamed : (s.define g name.text v).namedAt? f d name.text = some v := by
      rw [namedAt?, hset.ancestor?, hg]
      exact hset.here
    refine ⟨path, g, hpath, hancestor.symm.trans hg, hset, ?_, hnamed⟩
    rw [getAt_eq, hnamed]
  · rintro ⟨w, hread⟩
    rw [getAt_eq] at hread
    split at hread
    · next v hnamed =>
      obtain ⟨g, hg, hown⟩ := Option.bind_eq_some_iff.mp hnamed
      exact ⟨path, g, hpath, hancestor.symm.trans hg, by rw [hown]; rfl⟩
    · cases hread
  · rintro ⟨path', g, hpath', hg, hown⟩
    obtain ⟨w, hw⟩ := Option.isSome_iff_exists.mp hown
    refine ⟨w, ?_⟩
    rw [getAt_eq, namedAt?, hpath'.ancestor?, hg, Option.bind_some, hw]

/-! ## Main statement -/

/-- In every store that is built by operations on frames, a name is written by look-up
    exactly where it is read, which is the nearest frame that has it, and by distance in the
    frame that many links out; no other variable of any frame is touched. -/
theorem name_and_distance_laws (hs : s.Built) (hf : f < s.frames.size) (name : Lexeme) (v : Value) :
    s.WritesNearest f name v ∧ ∀ d, s.WritesAt f d name v :=
  ⟨hs.writesNearest hf name v, fun d => hs.writesAt hf d name v⟩

/-- A block inside a function: the function's variable is written from the block, and read
    from the function; the block's frame gets a name of its own by distance only. -/
theorem name_and_distance_laws_block : ∃ (s : Store) (x y : Lexeme), s.Built ∧
    2 < s.frames.size ∧ s.Nearest x.text 2 1 ∧
    (∃ t, s.assign 2 x (.bool true) = .ok t ∧ t.get 1 x = .ok (.bool true)) ∧
    s.assign 2 y .nil = .error (undefined y) ∧
    ∃ t, s.assignAt 2 0 y .nil = .ok t ∧ t.namedAt? 2 0 y.text = some .nil := by
  -- The global frame, that of the function with its variable, and that of the block.
  let function : Store := (empty.child globals).2.define 1 "x" .nil
  let s : Store := (function.child 1).2
  let x : Lexeme := ⟨"x", 1⟩
  let y : Lexeme := ⟨"y", 1⟩
  have hs : s.Built := .child (.define "x" .nil (.child .empty (by decide)) (by decide)) (by decide)
  have hpath : s.Path 2 [2, 1, 0] := .link rfl (.link rfl (.top rfl))
  have hnearest : s.Nearest "x" 2 1 :=
    ⟨[2], [0], hpath, List.forall_mem_singleton.mpr rfl, rfl⟩
  have hread : s.get 2 x = .ok .nil := by
    rw [get_eq, (nearest_iff hs.linksDown).mp hnearest]
    rfl
  have hnowhere : s.get 2 y = .error (undefined y) := by
    rw [get_eq, hpath.owner? hs.linksDown]
    rfl
  obtain ⟨hx, -⟩ := name_and_distance_laws hs (f := 2) (by decide) x (.bool true)
  obtain ⟨hy, hy'⟩ := name_and_distance_laws hs (f := 2) (by decide) y .nil
  refine ⟨s, x, y, hs, by decide, hnearest, ?_, (hy.fails _).mpr hnowhere, ?_⟩
  · obtain ⟨t, ht⟩ := hx.succeeds.mpr ⟨_, hread⟩
    obtain ⟨-, g, hg, -, -, hsees, -⟩ := hx.writes t ht
    have hone : s.Nearest "x" 1 1 :=
      ⟨[], [0], .link rfl (.top rfl), List.forall_mem_nil _, rfl⟩
    have hsame : some g = some 1 :=
      ((nearest_iff hs.linksDown).mp hg).symm.trans ((nearest_iff hs.linksDown).mp hnearest)
    cases hsame
    exact ⟨t, ht, hsees 1 x rfl hone⟩
  · obtain ⟨t, ht⟩ := (hy' 0).succeeds.mpr ⟨_, hpath, by decide⟩
    obtain ⟨-, _, _, -, -, -, -, hnamed⟩ := (hy' 0).writes t ht
    exact ⟨t, ht, hnamed⟩

end Store

end Lox
