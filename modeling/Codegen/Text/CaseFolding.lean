import Codegen.Text.CodeRange
import Codegen.Text.Utf8

/-!
# Case Folding

Text without the difference between capital and small letters, in any script, as
the Unicode character database defines it for comparison. In many scripts capital
and small letters alternate. Elsewhere neighbours in the code space mostly fold to
neighbours, and a few characters fold to several.
-/

namespace Codegen

/-- The ranges in which capital and small letters take turns. -/
def alternatingRanges : List CodeRange := CodeRange.ofRuns 0
  [256, 48, 2, 6, 1, 16, 1, 46, 1, 6, 3, 4, 1, 2, 2, 2, 4, 2, 5, 2, 6, 6, 1, 2, 3, 2, 1, 2, 2, 4,
   1, 2, 2, 2, 7, 2, 1, 2, 1, 18, 1, 18, 2, 4, 2, 40, 2, 18, 7, 2, 4, 2, 3, 10, 288, 4, 2, 2, 74,
   2, 20, 24, 7, 2, 1, 2, 100, 34, 8, 54, 1, 14, 1, 96, 6352, 150, 10, 96, 643, 2, 2779, 2, 5, 6,
   5, 2, 1, 2, 9, 100, 7, 4, 3, 2, 31052, 46, 18, 28, 134, 14, 2, 62, 9, 4, 1, 10, 3, 2, 3, 4, 2,
   20, 10, 16, 3, 4, 5, 2, 4, 4, 27, 2]

/-- Other letters in a row: the first, how many there are, and what the first folds to. For the
    next ones the first code point of that is one more each. -/
def foldRuns : List (Nat × Nat × List Nat) :=
  [(65, 26, [97]), (181, 1, [956]), (192, 23, [224]), (216, 7, [248]), (223, 1, [115, 115]),
   (304, 1, [105, 775]), (329, 1, [700, 110]), (376, 1, [255]), (383, 1, [115]), (385, 1, [595]),
   (390, 1, [596]), (393, 2, [598]), (398, 1, [477]), (399, 1, [601]), (400, 1, [603]),
   (403, 1, [608]), (404, 1, [611]), (406, 1, [617]), (407, 1, [616]), (412, 1, [623]),
   (413, 1, [626]), (415, 1, [629]), (422, 1, [640]), (425, 1, [643]), (430, 1, [648]),
   (433, 2, [650]), (439, 1, [658]), (452, 1, [454]), (455, 1, [457]), (458, 1, [460]),
   (496, 1, [106, 780]), (497, 1, [499]), (502, 1, [405]), (503, 1, [447]), (544, 1, [414]),
   (570, 1, [11365]), (573, 1, [410]), (574, 1, [11366]), (579, 1, [384]), (580, 1, [649]),
   (581, 1, [652]), (837, 1, [953]), (895, 1, [1011]), (902, 1, [940]), (904, 3, [941]),
   (908, 1, [972]), (910, 2, [973]), (912, 1, [953, 776, 769]), (913, 17, [945]), (931, 9, [963]),
   (944, 1, [965, 776, 769]), (975, 1, [983]), (976, 1, [946]), (977, 1, [952]), (981, 1, [966]),
   (982, 1, [960]), (1008, 1, [954]), (1009, 1, [961]), (1012, 1, [952]), (1013, 1, [949]),
   (1017, 1, [1010]), (1021, 3, [891]), (1024, 16, [1104]), (1040, 32, [1072]), (1216, 1, [1231]),
   (1329, 38, [1377]), (1415, 1, [1381, 1410]), (4256, 38, [11520]), (4295, 1, [11559]),
   (4301, 1, [11565]), (5112, 6, [5104]), (7296, 1, [1074]), (7297, 1, [1076]), (7298, 1, [1086]),
   (7299, 2, [1089]), (7301, 1, [1090]), (7302, 1, [1098]), (7303, 1, [1123]), (7304, 1, [42571]),
   (7312, 43, [4304]), (7357, 3, [4349]), (7830, 1, [104, 817]), (7831, 1, [116, 776]),
   (7832, 1, [119, 778]), (7833, 1, [121, 778]), (7834, 1, [97, 702]), (7835, 1, [7777]),
   (7838, 1, [115, 115]), (7944, 8, [7936]), (7960, 6, [7952]), (7976, 8, [7968]),
   (7992, 8, [7984]), (8008, 6, [8000]), (8016, 1, [965, 787]), (8018, 1, [965, 787, 768]),
   (8020, 1, [965, 787, 769]), (8022, 1, [965, 787, 834]), (8025, 1, [8017]), (8027, 1, [8019]),
   (8029, 1, [8021]), (8031, 1, [8023]), (8040, 8, [8032]), (8064, 8, [7936, 953]),
   (8072, 8, [7936, 953]), (8080, 8, [7968, 953]), (8088, 8, [7968, 953]), (8096, 8, [8032, 953]),
   (8104, 8, [8032, 953]), (8114, 1, [8048, 953]), (8115, 1, [945, 953]), (8116, 1, [940, 953]),
   (8118, 1, [945, 834]), (8119, 1, [945, 834, 953]), (8120, 2, [8112]), (8122, 2, [8048]),
   (8124, 1, [945, 953]), (8126, 1, [953]), (8130, 1, [8052, 953]), (8131, 1, [951, 953]),
   (8132, 1, [942, 953]), (8134, 1, [951, 834]), (8135, 1, [951, 834, 953]), (8136, 4, [8050]),
   (8140, 1, [951, 953]), (8146, 1, [953, 776, 768]), (8147, 1, [953, 776, 769]),
   (8150, 1, [953, 834]), (8151, 1, [953, 776, 834]), (8152, 2, [8144]), (8154, 2, [8054]),
   (8162, 1, [965, 776, 768]), (8163, 1, [965, 776, 769]), (8164, 1, [961, 787]),
   (8166, 1, [965, 834]), (8167, 1, [965, 776, 834]), (8168, 2, [8160]), (8170, 2, [8058]),
   (8172, 1, [8165]), (8178, 1, [8060, 953]), (8179, 1, [969, 953]), (8180, 1, [974, 953]),
   (8182, 1, [969, 834]), (8183, 1, [969, 834, 953]), (8184, 2, [8056]), (8186, 2, [8060]),
   (8188, 1, [969, 953]), (8486, 1, [969]), (8490, 1, [107]), (8491, 1, [229]), (8498, 1, [8526]),
   (8544, 16, [8560]), (9398, 26, [9424]), (11264, 48, [11312]), (11362, 1, [619]),
   (11363, 1, [7549]), (11364, 1, [637]), (11373, 1, [593]), (11374, 1, [625]), (11375, 1, [592]),
   (11376, 1, [594]), (11390, 2, [575]), (42877, 1, [7545]), (42893, 1, [613]), (42922, 1, [614]),
   (42923, 1, [604]), (42924, 1, [609]), (42925, 1, [620]), (42926, 1, [618]), (42928, 1, [670]),
   (42929, 1, [647]), (42930, 1, [669]), (42931, 1, [43859]), (42948, 1, [42900]),
   (42949, 1, [642]), (42950, 1, [7566]), (43888, 80, [5024]), (64256, 1, [102, 102]),
   (64257, 1, [102, 105]), (64258, 1, [102, 108]), (64259, 1, [102, 102, 105]),
   (64260, 1, [102, 102, 108]), (64261, 1, [115, 116]), (64262, 1, [115, 116]),
   (64275, 1, [1396, 1398]), (64276, 1, [1396, 1381]), (64277, 1, [1396, 1387]),
   (64278, 1, [1406, 1398]), (64279, 1, [1396, 1389]), (65313, 26, [65345]), (66560, 40, [66600]),
   (66736, 36, [66776]), (66928, 11, [66967]), (66940, 15, [66979]), (66956, 7, [66995]),
   (66964, 2, [67003]), (68736, 51, [68800]), (71840, 32, [71872]), (93760, 32, [93792]),
   (125184, 34, [125218])]

/-- What a code point folds to. -/
def foldCode (code : Nat) : List Nat :=
  if alternatingRanges.any fun r => r.lo ≤ code && code ≤ r.hi && (code - r.lo) % 2 = 0 then
    [code + 1]
  else
    match foldRuns.find? fun (lo, count, _) => lo ≤ code && code < lo + count with
    | some (lo, _, first :: rest) => (first + (code - lo)) :: rest
    | _ => [code]

/-- A text with every character folded. -/
def Bytes.foldCase (text : Bytes) : Bytes :=
  (Utf8.glyphs text).flatMap fun g =>
    if g.code = Utf8.replacement then g.bytes else (foldCode g.code).flatMap Utf8.encode

end Codegen
