import PegGrammar.Proofs.Places
import PegGrammar.Proofs.Renderings
import PegGrammar.Snapshot.Session

/-!
# Histories of snapshots

Whatever happened in a session, the file of a name holds what was last written under that name, by a
check in update mode or directly. Checks without update mode write nothing, and compare with it. So
the outcome of a check can be told from the history alone: which of its steps write follows from how
the tester was configured on the way, and not from the files.

A comparison of renderings finds every change of a result that parsing can have, as long as both
renderings are in the default style. Other styles can leave out the spans or the indentation, and
then different trees can look the same.

## Main definitions

* `contentOf` — what stands for a result in a style
* `Step.configure` — the tester that a step leaves
* `Step.write?` — the name and the content that a step writes
* `writes` — what a history writes, in order
* `LastWritten` — the content that was last written under a name

## Main results

* `Session.read?_perform` — what one step does to the file of a name
* `Session.read?_performAll` — what a history does to it
* `snapshots_show_every_change` — what a check says, and what it changes, after any history
-/

namespace PegGrammar.Snapshot

/-! ### Stored contents -/

namespace Store

/-- A file holds what was written to it. -/
theorem read?_write_self (s : Store) (place : Place) (content : String) :
    (s.write place content).read? place = some content := by
  simp [read?, write]

theorem lookup_filter_of_ne {place other : Place} (h : other ≠ place)
    (entries : List (Place × String)) :
    (entries.filter (·.1 != place)).lookup other = entries.lookup other := by
  induction entries with
  | nil => rfl
  | cons entry entries ih =>
    obtain ⟨key, kept⟩ := entry
    by_cases hkey : key = place
    · rw [List.filter_cons_of_neg (by simp [hkey]), List.lookup_cons, hkey,
        beq_eq_false_iff_ne.mpr h, ih]
    · rw [List.filter_cons_of_pos (by simp [hkey]), List.lookup_cons, List.lookup_cons, ih]

/-- Writing one file leaves the others as they are. The old entry of the file is taken out of the
list, which moves the others but does not change them. -/
theorem read?_write_of_ne (s : Store) {place other : Place} (h : other ≠ place)
    (content : String) : (s.write place content).read? other = s.read? other := by
  rw [read?, write, List.lookup_cons, beq_eq_false_iff_ne.mpr h]
  exact lookup_filter_of_ne h s.entries

end Store

/-! ### What a history writes -/

/-- The content that stands for a result in a style: the dump of a tree, or the message of an error
and its span. -/
def contentOf (style : DumpStyle) : ParseResult → String
  | .ok tree => tree.dump style
  | .error err => err.message ++ "\nspan: " ++ err.span.text ++ "\n"

/-- The style of a tester and nothing else of it has an influence on the content, so a check can be
understood without the directory and the mode. -/
theorem Tester.render_eq (t : Tester) (result : ParseResult) :
    t.render result = contentOf t.style result := by
  cases result <;> rfl

namespace Step

/-- The tester after a step. A new one is in update mode if either variable is set, and it renders
in the default style whatever the style was before. -/
def configure (t : Tester) : Step → Tester
  | .renew environment =>
    ⟨t.directory,
      decide ("UPDATE_SNAPSHOTS" ∈ environment ∨ "TRELLIS_UPDATE_SNAPSHOTS" ∈ environment), {}⟩
  | .setUpdating updating => { t with updating }
  | .setStyle style => { t with style }
  | .put _ _ | .check _ _ => t

/-- The name and the content that a step writes, if it writes. -/
def write? (t : Tester) : Step → Option (String × String)
  | .put name content => some (name, content)
  | .check name result => if t.updating then some (name, contentOf t.style result) else none
  | .renew _ | .setUpdating _ | .setStyle _ => none

/-- The name that the step is about, if it is about one, is the name of a file. -/
def Plain : Step → Prop
  | .put name _ | .check name _ => PlainFile name
  | .renew _ | .setUpdating _ | .setStyle _ => True

end Step

/-- The names and contents that the steps of a history write, in order, when it begins with this
tester. -/
def writes (t : Tester) : List Step → List (String × String)
  | [] => []
  | step :: steps => (step.write? t).toList ++ writes (step.configure t) steps

/-- The content is the last that was written under the name. -/
def LastWritten (written : List (String × String)) (name content : String) : Prop :=
  ∃ before after, written = before ++ (name, content) :: after ∧ ∀ w ∈ after, w.1 ≠ name

namespace Session

variable {s : Session} {step : Step} {steps : List Step} {name content : String}

/-- A step leaves the tester that its kind and the tester before it call for; neither the files nor
the verdict of a check have a say in it. -/
theorem tester_perform (s : Session) (step : Step) :
    (s.perform step).2.tester = step.configure s.tester := by
  cases step with
  | renew environment => simp [perform, Step.configure, Tester.new, updateSwitches, updateSwitch]
  | setUpdating | setStyle | put | check => rfl

theorem performAll_concat (s : Session) (steps : List Step) (step : Step) :
    s.performAll (steps ++ [step]) = ((s.performAll steps).perform step).2 :=
  List.foldl_concat _ _ _ _

/-- What the second part of a history writes depends on the first part through the tester only:
whether it was in update mode by then, and what its style was. -/
theorem writes_append (s : Session) (earlier later : List Step) :
    writes s.tester (earlier ++ later)
      = writes s.tester earlier ++ writes (s.performAll earlier).tester later := by
  induction earlier generalizing s with
  | nil => rfl
  | cons first earlier ih =>
    have hrest := ih (s.perform first).2
    rw [tester_perform] at hrest
    rw [List.cons_append, writes, writes, hrest, List.append_assoc]
    rfl

/-- After a history, the tester is what the steps made of it one after the other. -/
theorem tester_performAll (s : Session) (steps : List Step) :
    (s.performAll steps).tester = steps.foldl Step.configure s.tester := by
  induction steps generalizing s with
  | nil => rfl
  | cons step steps ih =>
    rw [List.foldl_cons, ← tester_perform]
    exact ih _

/-- All testers of a history work in one directory, so a name stands for the same file all the
way. -/
theorem directory_performAll (s : Session) (steps : List Step) :
    (s.performAll steps).tester.directory = s.tester.directory := by
  induction steps generalizing s with
  | nil => rfl
  | cons step steps ih =>
    have hstep : (s.perform step).2.tester.directory = s.tester.directory := by
      rw [tester_perform]
      cases step <;> rfl
    exact (ih _).trans hstep

/-! ### One step -/

section Step

variable {folder : Place}

/-- Plain file names have their places in this folder of the directory. -/
def Lodged (directory : String) (folder : Place) : Prop :=
  ∀ name, PlainFile name →
    locate? directory (filePath directory name) = some (fileOf name :: folder)

/-- What is stored under a plain name is what the file of that name holds, in the folder that the
directory leads to. -/
theorem read?_eq (h : Lodged s.tester.directory folder) (hname : PlainFile name) :
    s.read? name = s.store.read? (fileOf name :: folder) := by
  rw [read?, Tester.load?, path, h name hname]
  rfl

/-- Saving under a plain name succeeds and writes the file that `read?_eq` reads. -/
theorem save_eq (h : Lodged s.tester.directory folder) (hname : PlainFile name) :
    s.tester.save s.store (filePath s.tester.directory name) content
      = (.ok (), s.store.write (fileOf name :: folder) content) := by
  rw [Tester.save, h name hname]

/-- A step that writes passes, and changes nothing but the file. -/
theorem perform_of_write (h : Lodged s.tester.directory folder) (hplain : step.Plain)
    (hwrite : step.write? s.tester = some (name, content)) :
    PlainFile name ∧ s.perform step
      = (.ok (), { s with store := s.store.write (fileOf name :: folder) content }) := by
  cases step with
  | put name' content' =>
    cases hwrite
    refine ⟨hplain, ?_⟩
    rw [perform, path, save_eq h hplain]
  | check name' result =>
    rw [Step.write?] at hwrite
    split at hwrite
    next hupdating =>
      cases hwrite
      refine ⟨hplain, ?_⟩
      rw [perform, Tester.check, if_pos hupdating, Tester.path, hplain.snapshotPath_eq,
        save_eq h hplain, Tester.render_eq]
    next => cases hwrite
  | renew | setUpdating | setStyle => cases hwrite

/-- Without update mode, a check compares the rendering with what is stored. -/
theorem check_of_not_updating {t : Tester} (hupdating : t.updating = false) (store : Store)
    (name : String) (result : ParseResult) :
    (t.check store name result).2 = store ∧
      ((t.check store name result).1 = .ok () ↔
        t.load? store (t.path name) = some (contentOf t.style result)) := by
  rw [Tester.check, hupdating, Tester.render_eq]
  cases t.load? store (t.path name) with
  | none => exact ⟨rfl, nofun, nofun⟩
  | some expected =>
    simp only [Bool.false_eq_true, if_false, Option.some.injEq]
    split
    next heq => exact ⟨rfl, fun _ => heq.symm, fun _ => rfl⟩
    next hne => exact ⟨rfl, nofun, fun heq => absurd heq.symm hne⟩

/-- A check outside update mode leaves everything as it was, and it passes exactly if the stored
content is that of the result. A missing file is a difference, too. -/
theorem perform_check_of_not_updating (hupdating : s.tester.updating = false)
    (hname : PlainFile name) (result : ParseResult) :
    (s.perform (.check name result)).2 = s ∧
      ((s.perform (.check name result)).1 = .ok () ↔
        s.read? name = some (contentOf s.tester.style result)) := by
  obtain ⟨hstore, hpasses⟩ := check_of_not_updating hupdating s.store name result
  rw [Tester.path, hname.snapshotPath_eq] at hpasses
  exact ⟨congrArg (fun store => { s with store }) hstore, hpasses⟩

/-- A step that does not write keeps the files. -/
theorem store_perform_of_not_write (hwrite : step.write? s.tester = none) :
    (s.perform step).2.store = s.store := by
  cases step with
  | put name content => cases hwrite
  | check name result =>
    have hupdating : s.tester.updating = false := by
      rw [Step.write?] at hwrite
      split at hwrite
      next => cases hwrite
      next hupdating => exact Bool.eq_false_iff.mpr hupdating
    exact (check_of_not_updating hupdating s.store name result).1
  | renew | setUpdating | setStyle => rfl

/-- **What one step does to the file of a name.** -/
theorem read?_perform (h : Lodged s.tester.directory folder) (hplain : step.Plain)
    (hname : PlainFile name) :
    (s.perform step).2.read? name = some content ↔
      step.write? s.tester = some (name, content) ∨
        (∀ w ∈ step.write? s.tester, w.1 ≠ name) ∧ s.read? name = some content := by
  have hafter : Lodged (s.perform step).2.tester.directory folder := by
    rw [tester_perform]
    cases step <;> exact h
  rw [read?_eq hafter hname, read?_eq h hname]
  cases hwrite : step.write? s.tester with
  | none =>
    rw [store_perform_of_not_write hwrite]
    simp
  | some w =>
    obtain ⟨other, new⟩ := w
    obtain ⟨hother, hperform⟩ := perform_of_write h hplain hwrite
    rw [hperform]
    by_cases heq : other = name
    · subst heq
      simp [Store.read?_write_self, eq_comm]
    · have hplace : fileOf name :: folder ≠ fileOf other :: folder :=
        fun hfile => heq (fileOf_injective (List.cons.inj hfile).1).symm
      rw [Store.read?_write_of_ne _ hplace]
      simp [heq]

end Step

/-! ### A history -/

/-- The last thing written is either the newest, or the last before it if the newest went to another
file. -/
theorem lastWritten_concat_iff {written : List (String × String)} {w : String × String} :
    LastWritten (written ++ [w]) name content ↔
      w = (name, content) ∨ w.1 ≠ name ∧ LastWritten written name content := by
  constructor
  · rintro ⟨before, after, heq, hafter⟩
    rcases List.eq_nil_or_concat after with rfl | ⟨rest, last, rfl⟩
    · exact Or.inl (List.cons.inj (List.append_inj' heq rfl).2).1
    · rw [List.concat_eq_append, ← List.cons_append, ← List.append_assoc] at heq
      obtain ⟨hwritten, hlast⟩ := List.append_inj' heq rfl
      obtain rfl := (List.cons.inj hlast).1
      rw [List.concat_eq_append, List.forall_mem_append, List.forall_mem_singleton] at hafter
      exact Or.inr ⟨hafter.2, before, rest, hwritten, hafter.1⟩
  · rintro (rfl | ⟨hne, before, after, rfl, hafter⟩)
    · exact ⟨written, [], rfl, nofun⟩
    · refine ⟨before, after ++ [w], by simp, ?_⟩
      exact List.forall_mem_append.mpr ⟨hafter, List.forall_mem_singleton.mpr hne⟩

/-- **What a history does to the file of a name.** It holds the content that was last written to it,
or what it held before if nothing was written to it. -/
theorem read?_performAll (hfolder : Folder s.tester.directory)
    (hsteps : ∀ step ∈ steps, step.Plain) (hname : PlainFile name) :
    (s.performAll steps).read? name = some content ↔
      LastWritten (writes s.tester steps) name content ∨
        (∀ w ∈ writes s.tester steps, w.1 ≠ name) ∧ s.read? name = some content := by
  obtain ⟨folder, hlodged⟩ := exists_locate?_eq hfolder
  induction steps using List.reverseRecOn with
  | nil => simp [performAll, writes, LastWritten]
  | append_singleton steps step ih =>
    obtain ⟨hsteps, hstep⟩ := List.forall_mem_append.mp hsteps
    have hthere : Lodged (s.performAll steps).tester.directory folder := by
      rw [directory_performAll]
      exact hlodged
    rw [performAll_concat, read?_perform hthere (List.forall_mem_singleton.mp hstep) hname,
      ih hsteps, writes_append, writes, writes, List.append_nil]
    cases hwrite : step.write? (s.performAll steps).tester with
    | none => simp
    | some w =>
      rw [Option.toList_some, lastWritten_concat_iff]
      simp only [List.forall_mem_append, List.forall_mem_singleton, Option.some.injEq,
        Option.mem_some_iff, forall_eq']
      rw [and_or_left, ← or_assoc, and_left_comm, and_assoc]

/-- A check in update mode is the last to write, unless a later step writes under its name. -/
theorem read?_performAll_of_check (hfolder : Folder s.tester.directory) {earlier later : List Step}
    {result : ParseResult} (hsteps : ∀ step ∈ earlier ++ .check name result :: later, step.Plain)
    (hname : PlainFile name) (hupdating : (s.performAll earlier).tester.updating = true)
    (hlater : ∀ w ∈ writes (s.performAll earlier).tester later, w.1 ≠ name) :
    (s.performAll (earlier ++ .check name result :: later)).read? name
      = some (contentOf (s.performAll earlier).tester.style result) := by
  refine (read?_performAll hfolder hsteps hname).mpr
    (Or.inl ⟨writes s.tester earlier, _, ?_, hlater⟩)
  rw [writes_append, writes, Step.write?, if_pos hupdating]
  rfl

end Session

/-! ### Every change shows -/

open Session in
/-- **Snapshots keep what was written last, and show every change.** Take any session in a folder,
and any history of steps about plain file names. Afterwards,

* the tester is the one that the steps configured, and a new one would be in update mode exactly if
  one of the two variables is set, render in the default style, and change no file;
* in update mode, a check passes, and what it changes is the file of its name, which then holds the
  dump of the tree in the style of the tester, or the text of the error;
* without update mode, a check changes nothing, and it passes exactly if that content is what was
  last written under its name. What the file held when the session began counts as long as nothing
  was written;
* if the last to write was a check of an attainable result in the default style, then a check of an
  attainable result in the default style passes exactly if both results are the same. -/
theorem snapshots_show_every_change (s : Session) (hfolder : Folder s.tester.directory)
    (steps : List Step) (hsteps : ∀ step ∈ steps, step.Plain) (name : String)
    (hname : PlainFile name) (result : ParseResult) :
    let now := s.performAll steps
    let verdict := (now.perform (.check name result)).1
    let after := (now.perform (.check name result)).2
    let content := contentOf now.tester.style result
    (now.tester = steps.foldl Step.configure s.tester ∧
      ∀ environment, ∃ fresh, now.perform (.renew environment) = (.ok (), ⟨fresh, now.store⟩) ∧
        fresh.directory = now.tester.directory ∧ fresh.style = {} ∧
        (fresh.updating = true ↔
          "UPDATE_SNAPSHOTS" ∈ environment ∨ "TRELLIS_UPDATE_SNAPSHOTS" ∈ environment)) ∧
    (now.tester.updating = true →
      verdict = .ok () ∧ after.tester = now.tester ∧ after.read? name = some content ∧
      ∀ other, PlainFile other → other ≠ name → after.read? other = now.read? other) ∧
    (now.tester.updating = false →
      after = now ∧
      (verdict = .ok () ↔
        LastWritten (writes s.tester steps) name content ∨
          (∀ w ∈ writes s.tester steps, w.1 ≠ name) ∧ s.read? name = some content)) ∧
    ∀ earlier stored later, steps = earlier ++ .check name stored :: later →
      (s.performAll earlier).tester.updating = true → (s.performAll earlier).tester.style = {} →
      (∀ w ∈ writes (s.performAll earlier).tester later, w.1 ≠ name) →
      now.tester.updating = false → now.tester.style = {} →
      Attainable stored → Attainable result → (verdict = .ok () ↔ stored = result) := by
  intro now verdict after content
  obtain ⟨folder, hlodged⟩ := exists_locate?_eq hfolder
  have hthere : Lodged now.tester.directory folder := by
    rw [directory_performAll]
    exact hlodged
  have hplain : (Step.check name result).Plain := hname
  refine ⟨⟨tester_performAll s steps, fun environment => ?_⟩, fun hupdating => ?_,
    fun hupdating => ?_, ?_⟩
  · refine ⟨(Step.renew environment).configure now.tester, ?_, rfl, rfl, decide_eq_true_iff⟩
    rw [← tester_perform]
    rfl
  · have hwrite : (Step.check name result).write? now.tester = some (name, content) :=
      if_pos hupdating
    have hperform := (perform_of_write hthere hplain hwrite).2
    refine ⟨congrArg Prod.fst hperform, tester_perform now _,
      (read?_perform hthere hplain hname).mpr (Or.inl hwrite), fun other hother hne => ?_⟩
    refine Option.ext fun content => ?_
    rw [read?_perform hthere hplain hother, hwrite]
    simp [hne.symm]
  · obtain ⟨hkept, hpasses⟩ := perform_check_of_not_updating hupdating hname result
    exact ⟨hkept, hpasses.trans (read?_performAll hfolder hsteps hname)⟩
  · rintro earlier stored later rfl hthen hstyleThen hlater hupdating hstyle hstored hresult
    rw [(perform_check_of_not_updating hupdating hname result).2,
      read?_performAll_of_check hfolder hsteps hname hthen hlater, Option.some.injEq, hstyleThen,
      ← hstyle, ← Tester.render_eq, ← Tester.render_eq]
    exact rendering_eq_iff hstyle hstored hresult

/-- A letter. -/
def oneLetter : Grammar where
  rules := #[⟨"letter", [.literal "e"], nofun⟩]
  start := ⟨0⟩
  valid := rfl

/-- Any number of letters. -/
def anyLetters : Grammar where
  rules := #[⟨"letters", [.repeated (.literal "e") .zeroToMany], nofun⟩]
  start := ⟨0⟩
  valid := rfl

/-- The error of a text without a letter where there has to be one. -/
def oneLetterError : ParseError := ⟨.noMatch, .of 0 0, ⟨1, 1⟩⟩

/-- The error of the same text where there can be none. -/
def anyLettersError : ParseError := ⟨.trailingInput, .of 0 1, ⟨1, 1⟩⟩

/-- The tree of a line break. -/
def lineBreak : SyntaxTree := ⟨.branch (.rule "break") (.of 0 1) [.leaf .literal (.of 0 1) "\n"]⟩

/-- An error is stored, another file is written, and update mode ends. -/
def storing : List Step :=
  [.renew ["UPDATE_SNAPSHOTS"], .check "odd" (.error oneLetterError), .put "other" "kept",
    .setUpdating false]

/-- The other variable turns update mode on, and trees are rendered in a style of their own. -/
def restyling : List Step := [.renew ["LANG", "TRELLIS_UPDATE_SNAPSHOTS"], .setStyle ⟨"\t", false⟩]

/-- Two errors with the same message. The stored one passes, and the change to the other shows. A
tree is stored in the style that was asked for, and does not pass in the default style, which a new
tester has. -/
theorem storing_shows_change :
    (oneLetterError.message = anyLettersError.message ∧
      Attainable (.error oneLetterError) ∧ Attainable (.error anyLettersError) ∧
      let now := Session.performAll ⟨.new "snaps" [], {}⟩ storing
      (now.perform (.check "odd" (.error oneLetterError))).1 = .ok () ∧
        (now.perform (.check "odd" (.error anyLettersError))).1 ≠ .ok ()) ∧
    let now := Session.performAll ⟨.new "snaps" [], {}⟩ restyling
    let after := (now.perform (.check "tree" (.ok lineBreak))).2
    now.tester.updating = true ∧ after.read? "tree" = some "break\n\tLiteral \"\\n\"\n" ∧
      ((after.perform (.renew ["LANG"])).2.perform (.check "tree" (.ok lineBreak))).1 ≠ .ok () := by
  have hletter : Attainable (.error oneLetterError) :=
    ⟨oneLetter, "b", List.forall_mem_singleton.mpr ⟨by decide, by decide⟩,
      Grammar.answers_of_parse (by decide +kernel)⟩
  have hletters : Attainable (.error anyLettersError) :=
    ⟨anyLetters, "b", List.forall_mem_singleton.mpr ⟨by decide, by decide⟩,
      Grammar.answers_of_parse (by decide +kernel)⟩
  have hodd : PlainFile "odd" := by decide +kernel
  have hother : PlainFile "other" := by decide +kernel
  have hsnaps : Folder (Tester.new "snaps" []).directory := by decide +kernel
  have hupdating : (Session.performAll ⟨.new "snaps" [], {}⟩ restyling).tester.updating = true := by
    decide +kernel
  have hcontent : contentOf ⟨"\t", false⟩ (.ok lineBreak) = "break\n\tLiteral \"\\n\"\n" := by
    decide +kernel
  refine ⟨⟨rfl, hletter, hletters, ?_⟩, hupdating, ?_, by decide +kernel⟩
  · have hsteps : ∀ step ∈ storing, step.Plain := by simp [storing, Step.Plain, hodd, hother]
    have hdetects := fun result => (snapshots_show_every_change ⟨.new "snaps" [], {}⟩
      hsnaps storing hsteps "odd" hodd result).2.2.2 [.renew ["UPDATE_SNAPSHOTS"]]
      (.error oneLetterError) _ rfl (by decide +kernel) (by decide +kernel) (by decide +kernel)
      (by decide +kernel) (by decide +kernel) hletter
    refine ⟨(hdetects _ hletter).mpr rfl, fun hpasses => ?_⟩
    exact absurd ((hdetects _ hletters).mp hpasses) (by decide)
  · have hsteps : ∀ step ∈ restyling, step.Plain := by simp [restyling, Step.Plain]
    obtain ⟨-, -, hstored, -⟩ := (snapshots_show_every_change ⟨.new "snaps" [], {}⟩
      hsnaps restyling hsteps "tree" (by decide +kernel) (.ok lineBreak)).2.1 hupdating
    rw [← hcontent]
    exact hstored

end PegGrammar.Snapshot
