import Mathlib
import Abacus.Proofs.Diagnostic.Report
import Abacus.Proofs.Run.Values
import Abacus.Proofs.Shell.Arguments
import Abacus.Proofs.Shell.Input

/-!
# One answer for a line, however it is given

The prompt, a script and a single expression write the same for the same lines.  They
differ only in what stands around the answers and in where they stop.
-/

namespace Abacus

namespace Shell

open Text

structure Reply where
  output : String
  success : Bool

/-- The replies to lines that are evaluated in order, each in the scope of those before it. -/
def replies (o : Options) (name : String) : List String -> Scope -> Except Breach (List Reply)
  | [], _ => .ok []
  | l :: rest, scope => do
      let r := Source.run ⟨name, l⟩ scope
      let output <- answer o ⟨name, l⟩ r.result
      let later <- replies o name rest r.scope
      return ⟨output, r.result.isOk⟩ :: later

/-- The replies up to the first one without a value. -/
def untilFailure (rs : List Reply) : List Reply :=
  rs.take (rs.findIdx (!·.success) + 1)

variable {o : Options} {name l : String} {lines : List String} {scope : Scope} {rs : List Reply}

theorem untilFailure_cons (r : Reply) (rs : List Reply) :
    untilFailure (r :: rs) = r :: if r.success then untilFailure rs else [] := by
  cases h : r.success <;> simp [untilFailure, List.findIdx_cons, h]

theorem replies_cons_iff :
    replies o name (l :: lines) scope = .ok rs ↔
      ∃ output later, answer o ⟨name, l⟩ (Source.run ⟨name, l⟩ scope).result = .ok output ∧
        replies o name lines (Source.run ⟨name, l⟩ scope).scope = .ok later ∧
        rs = ⟨output, (Source.run ⟨name, l⟩ scope).result.isOk⟩ :: later := by
  rw [replies]
  cases answer o ⟨name, l⟩ (Source.run ⟨name, l⟩ scope).result with
  | error e => simp [bind, Except.bind]
  | ok output =>
      cases replies o name lines (Source.run ⟨name, l⟩ scope).scope with
      | error e => simp [bind, Except.bind]
      | ok later => simp [bind, Except.bind, pure, Except.pure, eq_comm]

def showing (tokens tree : Bool) : Options :=
  { Options.initial with tokens := tokens, tree := tree }

/-- The replies depend on what of the tokens and the tree is shown, and on no other option. -/
theorem replies_eq_showing (o : Options) (name : String) (lines : List String) (scope : Scope) :
    replies o name lines scope = replies (showing o.tokens o.tree) name lines scope := by
  have hwritten : written o = written (showing o.tokens o.tree) := rfl
  induction lines generalizing scope with
  | nil => rfl
  | cons l lines ih => simp only [replies, answer, hwritten, ih]

theorem exists_replies (hlines : ∀ l ∈ lines, IsLine l.toList) (hshort : ∀ l ∈ lines, Short l)
    (hname : Short name) (o : Options) (scope : Scope) :
    ∃ rs, replies o name lines scope = .ok rs := by
  induction lines generalizing scope with
  | nil => exact ⟨[], rfl⟩
  | cons l lines ih =>
      rw [List.forall_mem_cons] at hlines hshort
      obtain ⟨later, hlater⟩ := ih hlines.2 hshort.2 (Source.run ⟨name, l⟩ scope).scope
      obtain ⟨text, htext⟩ : ∃ text,
          resultText (Source.run ⟨name, l⟩ scope).result = .ok text := by
        cases hresult : (Source.run ⟨name, l⟩ scope).result with
        | ok value => exact ⟨value.text, rfl⟩
        | error d => exact Source.exists_render hresult hlines.1.no_newline hname hshort.1
      have hanswer : answer o ⟨name, l⟩ (Source.run ⟨name, l⟩ scope).result =
          .ok (written o ⟨name, l⟩ text) := by
        rw [answer, htext]
        rfl
      exact ⟨_, replies_cons_iff.mpr ⟨_, later, hanswer, hlater, rfl⟩⟩

/-! ## The prompt -/

theorem respond_of_isLine (h : IsLine l.toList) (o : Options) (scope : Scope) :
    respond o l scope =
      (answer o ⟨o.sourceName, l⟩ (Source.run ⟨o.sourceName, l⟩ scope).result).map fun output =>
        (output, (Source.run ⟨o.sourceName, l⟩ scope).events,
          (Source.run ⟨o.sourceName, l⟩ scope).scope) := by
  have hne : l ≠ "" := by
    rintro rfl
    exact h.ne_nil rfl
  rw [respond, if_neg hne]

/-- Every line is answered, and the prompt stands before each and at the end. -/
theorem prompt_lines (h : ∀ l ∈ lines, IsLine l.toList)
    (hreplies : replies o o.sourceName lines scope = .ok rs) :
    ∃ r, prompt o (lines.map fun l => bytes (line l)) scope = .ok r ∧ r.success = true ∧
      r.output = String.join (rs.map (o.promptText ++ ·.output)) ++ (o.promptText ++ farewell) := by
  induction lines generalizing scope rs with
  | nil =>
      cases hreplies
      exact ⟨_, rfl, rfl, rfl⟩
  | cons l lines ih =>
      rw [List.forall_mem_cons] at h
      obtain ⟨output, later, hanswer, hlater, rfl⟩ := replies_cons_iff.mp hreplies
      obtain ⟨r, hprompt, hsuccess, houtput⟩ := ih h.2 hlater
      refine ⟨r.after (o.promptText ++ output) (Source.run ⟨o.sourceName, l⟩ scope).events,
        ?_, hsuccess, ?_⟩
      · rw [List.map_cons, prompt, inputText?_line h.1]
        simp only [respond_of_isLine h.1, hanswer, Except.map, bind, Except.bind, hprompt, pure,
          Except.pure]
      · simp only [Report.after, houtput, List.map_cons, String.join_cons, String.append_assoc]

/-! ## A script -/

theorem scriptOutput_value (o : Options) (path text : String) (value : Value) (r : Program.Run)
    (events : List Event) :
    scriptOutput o path ⟨(text, value) :: r.values, r.failure, r.scope, events⟩ =
      (scriptOutput o path r).map (written o ⟨path, text⟩ value.text ++ ·) := by
  simp only [scriptOutput, List.map_cons, String.join_cons]
  cases r.failure with
  | none => rfl
  | some d =>
      dsimp only
      cases answer o ⟨path, d.span.source.text⟩ (.error d) with
      | error e => rfl
      | ok output => simp only [Except.map, String.append_assoc]

/-- A script writes the replies of its lines until one fails. -/
theorem script_lines (hreplies : replies o name lines scope = .ok rs) :
    scriptOutput o name (Program.runLines name lines scope) =
        .ok (String.join ((untilFailure rs).map (·.output))) ∧
      (Program.runLines name lines scope).failure.isNone = rs.all (·.success) := by
  induction lines generalizing scope rs with
  | nil =>
      cases hreplies
      exact ⟨rfl, rfl⟩
  | cons l lines ih =>
      obtain ⟨output, later, hanswer, hlater, rfl⟩ := replies_cons_iff.mp hreplies
      rw [Program.runLines, untilFailure_cons]
      cases hresult : (Source.run ⟨name, l⟩ scope).result with
      | error d =>
          have hsource := (Source.pointsInto_of_runIn hresult).placed.source_eq
          rw [hresult] at hanswer
          simp only [scriptOutput, hsource, hanswer]
          simp [Except.map, Except.isOk, Except.toBool]
      | ok value =>
          obtain ⟨houtput, hsuccess⟩ := ih hlater
          rw [hresult] at hanswer
          cases hanswer
          simp only [scriptOutput_value, houtput, hsuccess]
          simp [Except.map, Except.isOk, Except.toBool]

/-! ## One expression -/

theorem once_of_replies (hreplies : replies o o.sourceName [l] scope = .ok rs) :
    ∃ r, once o l scope = .ok r ∧ rs = [⟨r.output, r.success⟩] := by
  obtain ⟨output, later, hanswer, hlater, rfl⟩ := replies_cons_iff.mp hreplies
  cases hlater
  refine ⟨_, congrArg (Except.map _) hanswer, rfl⟩

/-! ## The whole shell -/

/-- What the shell does for some arguments, which are taken by `parse`. -/
def report (parse : List String -> Except Misuse Request) (args : List String)
    (content : String -> Except String ByteArray) (input : ByteArray) :
    Except Misuse (Except Breach Report) :=
  (parse args).map (perform · content input)

section

variable (content : String -> Except String ByteArray)

theorem perform_prompt (h : ∀ l ∈ lines, IsLine l.toList) (hfile : o.file = none)
    (hexpression : o.expression = none) :
    perform (.run o) content (text lines).toUTF8 =
      prompt o (lines.map fun l => bytes (line l)) (Scope.ofTable Table.globals) := by
  rw [← inputLines_text h]
  simp only [perform, hexpression, hfile, bytes]

theorem perform_script {path text : String} (hfile : o.file = some path)
    (hexpression : o.expression = none) (hcontent : content path = .ok text.toUTF8)
    (input : ByteArray) :
    perform (.run o) content input = script o path text (Scope.ofTable Table.globals) := by
  simp only [perform, hexpression, hfile, hcontent, file, fromUTF8?_toUTF8]

theorem perform_once {expression : String} (hexpression : o.expression = some expression)
    (input : ByteArray) :
    perform (.run o) content input = once o expression (Scope.ofTable Table.globals) := by
  simp only [perform, hexpression]

theorem script_of_replies (h : ∀ l ∈ lines, IsLine l.toList)
    (hreplies : replies o name lines scope = .ok rs) :
    ∃ r, script o name (text lines) scope = .ok r ∧ r.success = rs.all (·.success) ∧
      r.output = String.join ((untilFailure rs).map (·.output)) := by
  obtain ⟨houtput, hsuccess⟩ := script_lines hreplies
  rw [script, Source.runProgram, programLines_text h, houtput]
  exact ⟨_, rfl, hsuccess, rfl⟩

end

theorem report_of_parse {parse : List String -> Except Misuse Request} {args : List String}
    (h : parse args = .ok (.run o)) (content : String -> Except String ByteArray)
    (input : ByteArray) :
    report parse args content input = .ok (perform (.run o) content input) := by
  rw [report, h]
  rfl

/--
The prompt, a script and a single expression give the same replies to the same lines, for all
arguments that ask for them.  The prompt gives all of the replies, with its text before each
and at the end, and never fails.  A script ends with the first line that has no value, which
its exit code tells.  An expression does what a script of one line does.  A value that looks
like an option has to be attached to its option, or the arguments are refused.
-/
theorem front_ends_agree {parse : List String -> Except Misuse Request}
    (hparse : Documented parse) (tokens tree : Bool) (p f : String) (lines : List String)
    (hlines : ∀ l ∈ lines, IsLine l.toList) (hshort : ∀ l ∈ lines, Short l) (hname : Short f)
    (content : String -> Except String ByteArray) :
    ∃ rs, replies (showing tokens tree) f lines (Scope.ofTable Table.globals) = .ok rs ∧
      (∀ args o, Asks .initial args o -> o.tokens = tokens -> o.tree = tree ->
        (o.file = none -> o.expression = none -> o.sourceName = f -> o.promptText = p ->
          ∃ r, report parse args content (text lines).toUTF8 = .ok (.ok r) ∧ r.exitCode = 0 ∧
            r.output = String.join (rs.map (p ++ ·.output)) ++ (p ++ farewell)) ∧
        (∀ input, o.file = some f -> o.expression = none ->
          content f = .ok (text lines).toUTF8 ->
          ∃ r, report parse args content input = .ok (.ok r) ∧
            r.exitCode = (if rs.all (·.success) then 0 else 1) ∧
            r.output = String.join ((untilFailure rs).map (·.output))) ∧
        ∀ input l, o.file = none -> o.expression = some l -> o.sourceName = f -> lines = [l] ->
          ∃ r, report parse args content input = .ok (.ok r) ∧
            r.exitCode = (if rs.all (·.success) then 0 else 1) ∧
            r.output = String.join (rs.map (·.output))) ∧
      ∀ before o (setting : Setting) word value rest input, Asks .initial before o ->
        word ∈ setting.words -> ¬ IsPlain value ->
          ∃ m, report parse (before ++ word :: value :: rest) content input = .error m := by
  obtain ⟨rs, hreplies⟩ := exists_replies hlines hshort hname (showing tokens tree)
    (Scope.ofTable Table.globals)
  refine ⟨rs, hreplies, ?_, ?_⟩
  · rintro args o hasks rfl rfl
    rw [← replies_eq_showing] at hreplies
    refine ⟨?_, ?_, ?_⟩
    · rintro hfile hexpression rfl rfl
      obtain ⟨r, hprompt, hsuccess, houtput⟩ := prompt_lines hlines hreplies
      refine ⟨r, ?_, by rw [Report.exitCode, hsuccess]; rfl, houtput⟩
      rw [report_of_parse (hparse.taken hasks (.inl hfile)),
        perform_prompt content hlines hfile hexpression, hprompt]
    · intro input hfile hexpression hcontent
      obtain ⟨r, hscript, hsuccess, houtput⟩ := script_of_replies hlines hreplies
      refine ⟨r, ?_, by rw [Report.exitCode, hsuccess], houtput⟩
      rw [report_of_parse (hparse.taken hasks (.inr hexpression)),
        perform_script content hfile hexpression hcontent, hscript]
    · rintro input l hfile hexpression rfl rfl
      obtain ⟨r, honce, rfl⟩ := once_of_replies hreplies
      refine ⟨r, ?_, by simp [Report.exitCode], by simp⟩
      rw [report_of_parse (hparse.taken hasks (.inl hfile)), perform_once content hexpression,
        honce]
  · intro before o setting word value rest input hasks hword hvalue
    obtain ⟨m, hm⟩ := hparse.refused rest hasks hword hvalue
    exact ⟨m, by rw [report, hm]; rfl⟩

def fileOf (lines : List String) (_ : String) : Except String ByteArray :=
  .ok (text lines).toUTF8

/-- Lines of which the second fails. -/
def lookups : List String :=
  ["var x=null", "z", "x"]

theorem lookups_isLine : ∀ l ∈ lookups, IsLine l.toList := by
  have hall : lookups.all (isLine ·.toList) = true := by cbv
  exact fun l hl => isLine_iff.mp (List.all_eq_true.mp hall l hl)

/-- The prompt goes on after the failure, the script does not, and the line fails by itself. -/
theorem front_ends_agree_lookups :
    (∃ rs, replies (showing false true) "script" lookups (Scope.ofTable Table.globals) = .ok rs ∧
      (∃ r, report Request.ofArguments ["--prompt", "> ", "--ast", "--name=script"]
          (fileOf lookups) (text lookups).toUTF8 = .ok (.ok r) ∧ r.exitCode = 0 ∧
        r.output = String.join (rs.map ("> " ++ ·.output)) ++ ("> " ++ farewell)) ∧
      ∃ r, report Request.ofArguments ["--ast", "--", "script"] (fileOf lookups) .empty =
          .ok (.ok r) ∧ r.exitCode = 1 ∧
        r.output = String.join ((rs.take 2).map (·.output))) ∧
    (∃ r, report Request.ofArguments ["-e", "z", "--name", "script", "--ast"] (fileOf lookups)
      .empty = .ok (.ok r) ∧ r.exitCode = 1) ∧
    ∃ m, report Request.ofArguments ["--ast", "--eval", "-z"] (fileOf lookups) .empty =
      .error m := by
  have hshort : ∀ l ∈ lookups, Short l := by simp only [lookups, Short]; decide
  have hname : Short "script" := by simp only [Short]; decide
  have hfirst : (Source.run ⟨"script", "var x=null"⟩ (.ofTable .globals)).result.isOk = true := by
    cbv
  have hsecond : (Source.run ⟨"script", "z"⟩
      (Source.run ⟨"script", "var x=null"⟩ (.ofTable .globals)).scope).result.isOk = false := by
    cbv
  have halone : (Source.run ⟨"script", "z"⟩ (.ofTable .globals)).result.isOk = false := by
    cbv
  have hz : "z" ∈ lookups := by simp [lookups]
  have hplain : ∀ value ∈ ["> ", "z", "script"], IsPlain value := by
    simp only [IsPlain]
    decide
  have hminus : ¬ IsPlain "-z" := by
    simp only [IsPlain]
    decide
  have hnameAttached : Gives .name "script" ["--name=script"] :=
    @Gives.attached .name "script" "--name" (by decide)
  have hnameSeparate : Gives .name "script" ["--name", "script"] :=
    .separate (by decide) (hplain _ (by simp))
  have hpromptSeparate : Gives .prompt "> " ["--prompt", "> "] :=
    .separate (by decide) (hplain _ (by simp))
  have hexpressionSeparate : Gives .expression "z" ["-e", "z"] :=
    .separate (by decide) (hplain _ (by simp))
  have hpromptArgs : Asks .initial ["--prompt", "> ", "--ast", "--name=script"]
      ⟨none, none, some "script", some "> ", false, true⟩ :=
    .setting hpromptSeparate rfl (.tree rfl (.setting hnameAttached rfl (.done _)))
  have hfileArgs : Asks .initial ["--ast", "--", "script"]
      ⟨some "script", none, none, none, false, true⟩ :=
    .tree rfl (.separated (by decide) rfl)
  have honceArgs : Asks .initial ["-e", "z", "--name", "script", "--ast"]
      ⟨none, some "z", some "script", none, false, true⟩ :=
    .setting hexpressionSeparate rfl (.setting hnameSeparate rfl (.tree rfl (.done _)))
  obtain ⟨rs, hreplies, hagree, hrefused⟩ :=
    front_ends_agree Request.documented_ofArguments false true "> " "script" lookups
      lookups_isLine hshort hname (fileOf lookups)
  obtain ⟨rz, hrz, honce, -⟩ :=
    front_ends_agree Request.documented_ofArguments false true "> " "script" ["z"]
      (by simpa using lookups_isLine "z" hz) (by simpa using hshort "z" hz) hname (fileOf lookups)
  obtain ⟨first, later, -, hlater, rfl⟩ := replies_cons_iff.mp hreplies
  obtain ⟨second, last, -, -, rfl⟩ := replies_cons_iff.mp hlater
  obtain ⟨single, none, -, hnone, rfl⟩ := replies_cons_iff.mp hrz
  cases hnone
  refine ⟨⟨_, hreplies, ?_, ?_⟩, ?_, ?_⟩
  · exact (hagree _ _ hpromptArgs rfl rfl).1 rfl rfl rfl rfl
  · obtain ⟨r, hreport, hcode, houtput⟩ :=
      (hagree _ _ hfileArgs rfl rfl).2.1 .empty rfl rfl rfl
    refine ⟨r, hreport, ?_, ?_⟩
    · simpa [hfirst, hsecond] using hcode
    · rw [houtput]
      simp [untilFailure_cons, hfirst, hsecond]
  · obtain ⟨r, hreport, hcode, -⟩ :=
      (honce _ _ honceArgs rfl rfl).2.2 .empty "z" rfl rfl rfl rfl
    exact ⟨r, hreport, by simpa [halone] using hcode⟩
  · exact hrefused ["--ast"] _ .expression "--eval" "-z" [] .empty (.tree rfl (.done _))
      (by decide) hminus

/-- A line that looks like an option can be run from a file, but not behind `-e`. -/
theorem front_ends_disagree_minus :
    (∃ r, report Request.ofArguments ["f"] (fileOf ["-1"]) .empty = .ok (.ok r) ∧
      r.exitCode = 0 ∧ r.output = "-1\n") ∧
    ∃ m, report Request.ofArguments ["-e", "-1", "--name", "f"] (fileOf ["-1"]) .empty =
      .error m := by
  have hlines : ∀ l ∈ ["-1"], IsLine l.toList := by
    have hline : isLine "-1".toList = true := by cbv
    simpa using isLine_iff.mp hline
  have hspelled := Number.spelled_int (-1)
  have htext : Number.text (.int (-1)) = "-1" := by decide
  rw [htext] at hspelled
  obtain ⟨-, value, hvalue, hnumber⟩ :=
    Source.run_of_spelled (s := ⟨"f", "-1"⟩) hspelled (.ofTable .globals)
  have hshown : value.text = "-1" := by
    rw [Value.text, hnumber, Number.readBack_of_ne (by decide), htext]
  have hreplies : replies ⟨some "f", none, none, none, false, false⟩ "f" ["-1"]
      (.ofTable .globals) = .ok [⟨"-1\n", true⟩] := by
    refine replies_cons_iff.mpr ⟨"-1\n", [], ?_, rfl, ?_⟩
    · rw [hvalue, answer, resultText, hshown]
      rfl
    · rw [hvalue]
      rfl
  constructor
  · obtain ⟨r, hscript, hsuccess, houtput⟩ := script_of_replies hlines hreplies
    have hfile : Request.ofArguments ["f"] =
        .ok (.run ⟨some "f", none, none, none, false, false⟩) := rfl
    refine ⟨r, ?_, by rw [Report.exitCode, hsuccess]; rfl, houtput⟩
    rw [report_of_parse hfile, perform_script (fileOf ["-1"]) rfl rfl rfl, hscript]
  · exact ⟨_, rfl⟩

end Shell

end Abacus
