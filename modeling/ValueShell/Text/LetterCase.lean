/-!
# Letter case

Upper and lower case of every script. A run of code points that move by one distance is one entry;
letters that become several characters are listed apart.
-/

set_option autoImplicit false

namespace ValueShell.Text

/-- The code points from `first` to `last`, `step` apart, each of which moves by `shift`. -/
structure CaseRun where
  first : Nat
  last : Nat
  step : Nat
  shift : Int

/-- The run holds the code point. -/
def CaseRun.contains (r : CaseRun) (n : Nat) : Bool :=
  r.first ≤ n && n ≤ r.last && (n - r.first) % r.step == 0

/-- Runs in a row, each given by how far its first letter is from that of the run before, how many letters
it has, how far they are apart and by how much they move. -/
def CaseRun.ofDistances (before : Nat) : List (Nat × Nat × Nat × Int) → List CaseRun
  | (distance, count, step, shift) :: rest =>
    let first := before + distance
    { first, last := first + (count - 1) * step, step, shift } :: ofDistances first rest
  | [] => []

/-- The run that moves back. -/
def CaseRun.inverse (r : CaseRun) : CaseRun where
  first := (r.first + r.shift).toNat
  last := (r.last + r.shift).toNat
  step := r.step
  shift := -r.shift

/-- Runs of letters beyond ASCII whose upper case has them as its lower case. -/
def exchangedRuns : List CaseRun := CaseRun.ofDistances 0 [
    (224, 23, 1, -32), (24, 7, 1, -32), (7, 1, 1, 121), (2, 24, 2, -1), (50, 3, 2, -1), (7, 8, 2, -1),
    (17, 23, 2, -1), (47, 3, 2, -1), (6, 1, 1, 195), (3, 2, 2, -1), (5, 1, 1, -1), (4, 1, 1, -1),
    (6, 1, 1, -1), (3, 1, 1, 97), (4, 1, 1, -1), (1, 1, 1, 163), (4, 1, 1, 130), (3, 3, 2, -1),
    (7, 1, 1, -1), (5, 1, 1, -1), (3, 1, 1, -1), (4, 2, 2, -1), (5, 1, 1, -1), (4, 1, 1, -1), (2, 1, 1, 56),
    (7, 1, 1, -2), (3, 1, 1, -2), (3, 1, 1, -2), (17, 1, 1, -79), (2, 9, 2, -1), (20, 1, 1, -2),
    (6, 20, 2, -1), (42, 9, 2, -1), (25, 1, 1, -1), (3, 2, 1, 10815), (3, 1, 1, -1), (5, 5, 2, -1),
    (9, 1, 1, 10783), (1, 1, 1, 10780), (1, 1, 1, 10782), (1, 1, 1, -210), (1, 1, 1, -206), (2, 2, 1, -205),
    (3, 1, 1, -202), (2, 1, 1, -203), (1, 1, 1, 42319), (4, 1, 1, -205), (1, 1, 1, 42315), (2, 1, 1, -207),
    (2, 1, 1, 42280), (1, 1, 1, 42308), (2, 1, 1, -209), (1, 1, 1, -211), (1, 1, 1, 42308),
    (1, 1, 1, 10743), (1, 1, 1, 42305), (3, 1, 1, -211), (2, 1, 1, 10749), (1, 1, 1, -213), (3, 1, 1, -214),
    (8, 1, 1, 10727), (3, 1, 1, -218), (2, 1, 1, 42307), (1, 1, 1, -218), (4, 1, 1, 42282), (1, 1, 1, -218),
    (1, 1, 1, -69), (1, 2, 1, -217), (2, 1, 1, -71), (6, 1, 1, -219), (11, 1, 1, 42261), (1, 1, 1, 42258),
    (211, 2, 2, -1), (6, 1, 1, -1), (4, 3, 1, 130), (49, 1, 1, -38), (1, 3, 1, -37), (4, 17, 1, -32),
    (18, 9, 1, -32), (9, 1, 1, -64), (1, 2, 1, -63), (10, 1, 1, -8), (2, 12, 2, -1), (25, 1, 1, 7),
    (1, 1, 1, -116), (5, 1, 1, -1), (3, 1, 1, -1), (53, 32, 1, -32), (32, 16, 1, -80), (17, 17, 2, -1),
    (42, 27, 2, -1), (55, 7, 2, -1), (13, 1, 1, -15), (2, 48, 2, -1), (144, 38, 1, -48),
    (2927, 43, 1, 3008), (45, 3, 1, 3008), (763, 6, 1, -8), (2433, 1, 1, 35332), (4, 1, 1, 3814),
    (17, 1, 1, 35384), (115, 75, 2, -1), (160, 48, 2, -1), (95, 8, 1, 8), (16, 6, 1, 8), (16, 8, 1, 8),
    (16, 8, 1, 8), (16, 6, 1, 8), (17, 4, 2, 8), (15, 8, 1, 8), (16, 2, 1, 74), (2, 4, 1, 86),
    (4, 2, 1, 100), (2, 2, 1, 128), (2, 2, 1, 112), (2, 2, 1, 126), (52, 2, 1, 8), (32, 2, 1, 8),
    (16, 2, 1, 8), (5, 1, 1, 7), (361, 1, 1, -28), (34, 16, 1, -16), (20, 1, 1, -1), (844, 26, 1, -26),
    (1888, 48, 1, -48), (49, 1, 1, -1), (4, 1, 1, -10795), (1, 1, 1, -10792), (2, 3, 2, -1), (11, 1, 1, -1),
    (3, 1, 1, -1), (11, 50, 2, -1), (107, 2, 2, -1), (7, 1, 1, -1), (13, 38, 1, -7264), (39, 1, 1, -7264),
    (6, 1, 1, -7264), (30996, 23, 2, -1), (64, 14, 2, -1), (162, 7, 2, -1), (16, 31, 2, -1), (71, 2, 2, -1),
    (5, 5, 2, -1), (13, 1, 1, -1), (5, 2, 2, -1), (3, 1, 1, 48), (3, 10, 2, -1), (30, 8, 2, -1),
    (19, 2, 2, -1), (9, 1, 1, -1), (6, 2, 2, -1), (31, 1, 1, -1), (861, 1, 1, -928), (29, 80, 1, -38864),
    (21457, 26, 1, -32), (1255, 40, 1, -40), (176, 36, 1, -40), (191, 19, 2, -39), (1, 10, 1, -39),
    (12, 14, 1, -39), (16, 6, 1, -39), (8, 1, 1, -39), (1796, 51, 1, -64), (3072, 32, 1, -32),
    (21920, 32, 1, -32), (31426, 34, 1, -34)]

/-- Runs of letters beyond ASCII that have a one-character upper case. -/
def upperRuns : List CaseRun := exchangedRuns ++ CaseRun.ofDistances 0 [
    (181, 1, 1, 743), (124, 1, 1, -232), (78, 1, 1, -300), (70, 1, 1, -1), (3, 1, 1, -1), (3, 1, 1, -1),
    (3, 8, 2, -1), (36, 1, 1, -1), (3, 1, 1, -1), (336, 1, 1, 84), (125, 1, 1, -31), (14, 1, 1, -62),
    (1, 1, 1, -57), (4, 1, 1, -47), (1, 1, 1, -54), (26, 1, 1, -86), (1, 1, 1, -80), (4, 1, 1, -96),
    (6283, 1, 1, -6254), (1, 1, 1, -6253), (1, 1, 1, -6244), (1, 2, 1, -6242), (2, 1, 1, -6243),
    (1, 1, 1, -6236), (1, 1, 1, -6181), (1, 1, 1, 35266), (531, 1, 1, -59), (291, 1, 1, -7205)]

/-- The letters from one on that have an iota below or beside them, twice eight of them. In upper case they
are the eight letters from another one on, with an iota after it. -/
def withIota (first upper : Nat) : List (Nat × List Nat) :=
  (List.range 16).map fun i => (first + i, [upper + i % 8, 0x399])

/-- Letters whose upper case has several characters. -/
def upperExpansions : List (Nat × List Nat) :=
  withIota 0x1F80 0x1F08 ++ withIota 0x1F90 0x1F28 ++ withIota 0x1FA0 0x1F68 ++ [
    (0xDF, [0x53, 0x53]), (0x149, [0x2BC, 0x4E]), (0x1F0, [0x4A, 0x30C]), (0x390, [0x399, 0x308, 0x301]),
    (0x3B0, [0x3A5, 0x308, 0x301]), (0x587, [0x535, 0x552]), (0x1E96, [0x48, 0x331]),
    (0x1E97, [0x54, 0x308]), (0x1E98, [0x57, 0x30A]), (0x1E99, [0x59, 0x30A]), (0x1E9A, [0x41, 0x2BE]),
    (0x1F50, [0x3A5, 0x313]), (0x1F52, [0x3A5, 0x313, 0x300]), (0x1F54, [0x3A5, 0x313, 0x301]),
    (0x1F56, [0x3A5, 0x313, 0x342]), (0x1FB2, [0x1FBA, 0x399]), (0x1FB3, [0x391, 0x399]),
    (0x1FB4, [0x386, 0x399]), (0x1FB6, [0x391, 0x342]), (0x1FB7, [0x391, 0x342, 0x399]),
    (0x1FBC, [0x391, 0x399]), (0x1FC2, [0x1FCA, 0x399]), (0x1FC3, [0x397, 0x399]), (0x1FC4, [0x389, 0x399]),
    (0x1FC6, [0x397, 0x342]), (0x1FC7, [0x397, 0x342, 0x399]), (0x1FCC, [0x397, 0x399]),
    (0x1FD2, [0x399, 0x308, 0x300]), (0x1FD3, [0x399, 0x308, 0x301]), (0x1FD6, [0x399, 0x342]),
    (0x1FD7, [0x399, 0x308, 0x342]), (0x1FE2, [0x3A5, 0x308, 0x300]), (0x1FE3, [0x3A5, 0x308, 0x301]),
    (0x1FE4, [0x3A1, 0x313]), (0x1FE6, [0x3A5, 0x342]), (0x1FE7, [0x3A5, 0x308, 0x342]),
    (0x1FF2, [0x1FFA, 0x399]), (0x1FF3, [0x3A9, 0x399]), (0x1FF4, [0x38F, 0x399]), (0x1FF6, [0x3A9, 0x342]),
    (0x1FF7, [0x3A9, 0x342, 0x399]), (0x1FFC, [0x3A9, 0x399]), (0xFB00, [0x46, 0x46]),
    (0xFB01, [0x46, 0x49]), (0xFB02, [0x46, 0x4C]), (0xFB03, [0x46, 0x46, 0x49]),
    (0xFB04, [0x46, 0x46, 0x4C]), (0xFB05, [0x53, 0x54]), (0xFB06, [0x53, 0x54]), (0xFB13, [0x544, 0x546]),
    (0xFB14, [0x544, 0x535]), (0xFB15, [0x544, 0x53B]), (0xFB16, [0x54E, 0x546]), (0xFB17, [0x544, 0x53D])]

/-- Runs of letters beyond ASCII that have a one-character lower case. -/
def lowerRuns : List CaseRun := exchangedRuns.map CaseRun.inverse ++ CaseRun.ofDistances 0 [
    (453, 1, 1, 1), (3, 1, 1, 1), (3, 9, 2, 1), (39, 2, 2, 1), (514, 1, 1, -60), (6826, 1, 1, -7615),
    (234, 8, 1, -8), (16, 8, 1, -8), (16, 8, 1, -8), (20, 1, 1, -9), (16, 1, 1, -9), (48, 1, 1, -9),
    (298, 1, 1, -7517), (4, 1, 1, -8383), (1, 1, 1, -8262)]

/-- Letters whose lower case has several characters. -/
def lowerExpansions : List (Nat × List Nat) := [
    (0x130, [0x69, 0x307])]

/-- The characters that a letter beyond ASCII becomes under a case map. -/
def mapCase (runs : List CaseRun) (expansions : List (Nat × List Nat)) (c : Char) : List Char :=
  match expansions.lookup c.toNat with
  | some ns => ns.map Char.ofNat
  | none =>
    match runs.find? (·.contains c.toNat) with
    | some r => [Char.ofNat ((c.toNat : Int) + r.shift).toNat]
    | none => [c]

/-- The upper case of one character. -/
def upperChar (c : Char) : List Char :=
  if c.toNat < 128 then [c.toUpper] else mapCase upperRuns upperExpansions c

/-- The lower case of one character, away from the end of a word. -/
def lowerChar (c : Char) : List Char :=
  if c.toNat < 128 then [c.toLower] else mapCase lowerRuns lowerExpansions c

/-- The upper case of a text. -/
def upper (s : String) : String := String.ofList (s.toList.flatMap upperChar)

/-- The character has case. -/
def isCased (c : Char) : Bool := upperChar c != [c] || lowerChar c != [c]

/-- The character is passed over when the end of a word is looked for. -/
def isCaseIgnorable (c : Char) : Bool :=
  let n := c.toNat
  c == '\'' || c == '.' || c == ':' || c == '^' || n == 0x60 || n == 0xA8 || n == 0xAD || n == 0xAF ||
    n == 0xB4 || n == 0xB7 || n == 0xB8 || n == 0x2018 || n == 0x2019 || (0x300 ≤ n && n ≤ 0x36F)

/-- The lower case of a text. A capital sigma that ends a word takes its final form. The list
`before` holds the characters already passed, nearest first. -/
def lowerFrom (before : List Char) : List Char → List Char
  | [] => []
  | c :: rest =>
    let here :=
      if c.toNat == 0x3A3 then
        let inWord := ((before.dropWhile isCaseIgnorable).head?.map isCased).getD false
        let goesOn := ((rest.dropWhile isCaseIgnorable).head?.map isCased).getD false
        if inWord && !goesOn then [Char.ofNat 0x3C2] else [Char.ofNat 0x3C3]
      else lowerChar c
    here ++ lowerFrom (c :: before) rest

/-- The lower case of a text. -/
def lower (s : String) : String := String.ofList (lowerFrom [] s.toList)

end ValueShell.Text
