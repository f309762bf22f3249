import RegisterMap.Proofs.Html.Descriptions
import RegisterMap.Proofs.Html.Paragraphs
import RegisterMap.Proofs.Html.PlainText
import RegisterMap.Proofs.Text.Lines

/-!
What descriptions in plain text are shown as. Each run of lines that are not blank makes a
paragraph, and a reader who undoes the entities in it has the lines again, whatever is in
them. Nothing that comes from the text is taken for a heading or an image afterwards.
-/

namespace RegisterMap.Html

open Text (IsMaximalRun joinWith trim)

/-! Entities. -/

/-- A text with its entities undone, each of them once. -/
def unescape : List Char → List Char
  | [] => []
  | '&' :: 'a' :: 'm' :: 'p' :: ';' :: rest => '&' :: unescape rest
  | '&' :: 'l' :: 't' :: ';' :: rest => '<' :: unescape rest
  | '&' :: 'g' :: 't' :: ';' :: rest => '>' :: unescape rest
  | '&' :: 'q' :: 'u' :: 'o' :: 't' :: ';' :: rest => '"' :: unescape rest
  | '&' :: '#' :: '3' :: '9' :: ';' :: rest => '\'' :: unescape rest
  | c :: rest => c :: unescape rest

theorem unescape_cons {c : Char} (hc : c ≠ '&') (rest : List Char) :
    unescape (c :: rest) = c :: unescape rest := by
  conv_lhs => unfold unescape
  split <;> simp_all

theorem unescape_escapeChar (c : Char) (rest : List Char) :
    unescape (escapeChar c ++ rest) = c :: unescape rest := by
  by_cases hmark : c ∈ ['&', '<', '>', '"', '\'']
  · simp only [List.mem_cons, List.not_mem_nil, or_false] at hmark
    rcases hmark with rfl | rfl | rfl | rfl | rfl <;> rfl
  · simp only [List.mem_cons, List.not_mem_nil, or_false, not_or] at hmark
    obtain ⟨hamp, hopen, hclose, hquote, happos⟩ := hmark
    have hsame : escapeChar c = [c] := by
      rw [escapeChar, if_neg hamp, if_neg hopen, if_neg hclose, if_neg hquote, if_neg happos]
    rw [hsame, List.singleton_append, unescape_cons hamp]

theorem unescape_escape (text : String) : unescape (escape text).toList = text.toList := by
  rw [escape, String.toList_ofList]
  induction text.toList with
  | nil => rfl
  | cons c rest ih => rw [List.flatMap_cons, unescape_escapeChar, ih]

/-! Paragraphs. -/

/-- A line that is part of a paragraph. -/
def isLine (line : List Char) : Bool := !Text.allBlank line

/-- The text of a paragraph. -/
def paragraphText (run : List (List Char)) : String :=
  escape (String.ofList (joinWith '\n' (run.map trim)))

theorem renderAll_paragraph (run : List (List Char)) :
    Markup.renderAll (paragraph (run.map trim)) = "<p>" ++ paragraphText run ++ "</p>\n" := by
  have hend : escape "\n" = "\n" := by decide
  have hpieces : Markup.allPieces (paragraph (run.map trim)) =
      ["<p>", paragraphText run, "</p>", "\n"] := by
    rw [← hend]
    rfl
  rw [Markup.renderAll, hpieces, ← String.toList_inj, String.toList_join]
  simp

/-- The paragraphs of a text are the runs of its lines. -/
theorem paragraphs_eq_runs (text : List Char) :
    paragraphs text =
      (Text.runsBehind isLine false (Text.lines text)).map fun run => run.2.map trim := by
  have hline (line : List Char) : trim line = [] ↔ isLine line = false := by
    rw [Text.trim_eq_nil_iff, isLine, Bool.not_eq_false']
  rw [paragraphs, ← Text.filter_splitAt_map hline, Text.lines]
  -- An empty piece behind the last line end is one more separator, which ends no run.
  rcases Text.map_trim_linesOfPieces (Text.splitAt '\n' text) with heq | heq
  · rw [heq]
  · rw [heq, Text.splitAt_append_sep, List.filter_append]
    exact List.append_nil _

/-- A fragment that shows a text in paragraphs. -/
structure ShowsRuns (text html : String) (runs : List (Nat × List (List Char))) : Prop where
  /-- There is a paragraph for each run of lines that are not blank, and for nothing else. -/
  mem_iff : ∀ start run,
    (start, run) ∈ runs ↔ IsMaximalRun isLine (Text.lines text.toList) start run
  in_order : runs.Pairwise fun run next => run.1 < next.1
  html_eq : html = String.join (runs.map fun run => "<p>" ++ paragraphText run.2 ++ "</p>\n")
  /-- With the entities undone, the lines are there as they are in the text. -/
  lines_eq : ∀ run ∈ runs,
    Text.splitAt '\n' (unescape (paragraphText run.2).toList) = run.2.map trim

/-- A fragment that nothing is done to, whatever files there are. -/
structure IsInert (html : String) : Prop where
  promote_eq : ∀ levels, promoteHeadings levels html = html
  bundle_eq : ∀ view origin assets, bundleImages view origin html assets = .ok (html, assets)
  /-- No image is looked for among the files. -/
  imageTag?_eq_none : ∀ rest, '<' :: rest <:+ html.toList → imageTag? ('<' :: rest) = none
  /-- There is no file to be read. -/
  images_eq_nil : ∀ view origin, Fragment.images view ⟨origin, html⟩ = []

theorem splitAt_paragraphText {lines run : List (List Char)} {start : Nat}
    (hlines : ∀ line ∈ lines, '\n' ∉ line) (hrun : IsMaximalRun isLine lines start run) :
    Text.splitAt '\n' (unescape (paragraphText run).toList) = run.map trim := by
  rw [paragraphText, unescape_escape, String.toList_ofList]
  refine Text.splitAt_joinWith (mt List.map_eq_nil_iff.1 hrun.ne_nil) ?_
  rw [List.forall_mem_map]
  intro line hline hmem
  have hmemLines : line ∈ lines := List.mem_of_mem_drop (hrun.here.mem hline)
  exact hlines line hmemLines (Text.mem_of_mem_trim hmem)

theorem exists_showsRuns (text : String) : ∃ runs, ShowsRuns text (plainText text) runs := by
  have hmem (start : Nat) (run : List (List Char)) :
      (start, run) ∈ Text.runsBehind isLine false (Text.lines text.toList) ↔
        IsMaximalRun isLine (Text.lines text.toList) start run := by
    rw [Text.mem_runsBehind_iff]
    simp
  refine ⟨_, hmem, Text.pairwise_runsBehind _ _ _, ?_, fun run hrun => ?_⟩
  · rw [plainText, paragraphs_eq_runs]
    induction Text.runsBehind isLine false (Text.lines text.toList) with
    | nil => rfl
    | cons run rest ih =>
      rw [List.map_cons, List.flatMap_cons, Markup.renderAll_append, renderAll_paragraph, ih,
        List.map_cons, String.join_cons]
  · exact splitAt_paragraphText (Text.not_mem_of_mem_lines _) ((hmem _ _).1 hrun)

theorem isInert_plainText (text : String) : IsInert (plainText text) := by
  have himage (rest : List Char) (hrest : '<' :: rest <:+ (plainText text).toList) :
      imageTag? ('<' :: rest) = none :=
    imageTag?_eq_none (hasOnlyParagraphs_plainText text) hrest
  refine ⟨fun levels => promoteHeadings_plainText levels text,
    fun view origin assets => bundleImages_plainText view origin text assets, himage,
    fun view origin => ?_⟩
  have hfound (rest : List Char) (hrest : '<' :: rest <:+ (plainText text).toList) :
      foundImage? view origin ('<' :: rest) = none := by
    simp [foundImage?, imageSource?, himage rest hrest]
  rw [Fragment.images, Fragment.pieces, cut_of_no_tag hfound, List.filterMap_map]
  exact List.filterMap_eq_nil_iff.2 fun _ _ => rfl

/-- Plain text is shown line by line as it is written, and stays as it is shown. -/
theorem plainText_faithful (text : String) :
    (∃ runs, ShowsRuns text (plainText text) runs) ∧ IsInert (plainText text) :=
  ⟨exists_showsRuns text, isInert_plainText text⟩

example : plainText "<h1>\r\n\n a &lt; b " = "<p>&lt;h1&gt;</p>\n<p>a &amp;lt; b</p>\n" := by
  decide +kernel

end RegisterMap.Html
