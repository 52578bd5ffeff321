/-!
# Compatibility decompositions that begin with an ASCII letter or digit

The full compatibility decomposition of a character may begin with an ASCII letter or digit, as
for accented letters, fullwidth and mathematical forms, ligatures, circled letters and units. The
tables list all such characters outside ASCII by that first character.
-/
namespace TermScan

/-- The characters whose decomposition begins with `first`: single code points, and inclusive
ranges of code points. -/
structure Origin where
  first : Char
  points : List Nat
  ranges : List (Nat × Nat)

def Origin.covers (o : Origin) (c : Char) : Bool :=
  o.points.contains c.toNat || o.ranges.any fun r => r.1 ≤ c.toNat && c.toNat ≤ r.2

set_option maxRecDepth 2000

/-- Characters that decompose to a text that begins with a digit. -/
def digitOrigins : List Origin := [
  ⟨'0', [0x2070, 0x2080, 0x2189, 0x24EA, 0x3358, 0xFF10, 0x1CCF0, 0x1D7CE, 0x1D7D8, 0x1D7E2,
    0x1D7EC, 0x1D7F6, 0x1FBF0],
    [(0x1F100, 0x1F101)]⟩,
  ⟨'1', [0xB9, 0x2081, 0x2155, 0x2159, 0x215B, 0x215F, 0x2460, 0x2488, 0x32C0, 0x3359, 0x33E0,
    0xFF11, 0x1CCF1, 0x1D7CF, 0x1D7D9, 0x1D7E3, 0x1D7ED, 0x1D7F7, 0x1F102, 0x1FBF1],
    [(0xBC, 0xBD), (0x2150, 0x2153), (0x2469, 0x2472), (0x2491, 0x249A), (0x32C9, 0x32CB),
    (0x3362, 0x336B), (0x33E9, 0x33F2)]⟩,
  ⟨'2', [0xB2, 0x2082, 0x2154, 0x2156, 0x2461, 0x2473, 0x2489, 0x249B, 0x32C1, 0x335A, 0x33E1,
    0xFF12, 0x1CCF2, 0x1D7D0, 0x1D7DA, 0x1D7E4, 0x1D7EE, 0x1D7F8, 0x1F103, 0x1FBF2],
    [(0x3251, 0x3259), (0x336C, 0x3370), (0x33F3, 0x33FC)]⟩,
  ⟨'3', [0xB3, 0xBE, 0x2083, 0x2157, 0x215C, 0x2462, 0x248A, 0x32C2, 0x335B, 0x33E2, 0xFF13,
    0x1CCF3, 0x1D7D1, 0x1D7DB, 0x1D7E5, 0x1D7EF, 0x1D7F9, 0x1F104, 0x1FBF3],
    [(0x325A, 0x325F), (0x32B1, 0x32B4), (0x33FD, 0x33FE)]⟩,
  ⟨'4', [0x2074, 0x2084, 0x2158, 0x2463, 0x248B, 0x32C3, 0x335C, 0x33E3, 0xFF14, 0x1CCF4, 0x1D7D2,
    0x1D7DC, 0x1D7E6, 0x1D7F0, 0x1D7FA, 0x1F105, 0x1FBF4],
    [(0x32B5, 0x32BE)]⟩,
  ⟨'5', [0x2075, 0x2085, 0x215A, 0x215D, 0x2464, 0x248C, 0x32BF, 0x32C4, 0x335D, 0x33E4, 0xFF15,
    0x1CCF5, 0x1D7D3, 0x1D7DD, 0x1D7E7, 0x1D7F1, 0x1D7FB, 0x1F106, 0x1FBF5],
    []⟩,
  ⟨'6', [0x2076, 0x2086, 0x2465, 0x248D, 0x32C5, 0x335E, 0x33E5, 0xFF16, 0x1CCF6, 0x1D7D4,
    0x1D7DE, 0x1D7E8, 0x1D7F2, 0x1D7FC, 0x1F107, 0x1FBF6],
    []⟩,
  ⟨'7', [0x2077, 0x2087, 0x215E, 0x2466, 0x248E, 0x32C6, 0x335F, 0x33E6, 0xFF17, 0x1CCF7, 0x1D7D5,
    0x1D7DF, 0x1D7E9, 0x1D7F3, 0x1D7FD, 0x1F108, 0x1FBF7],
    []⟩,
  ⟨'8', [0x2078, 0x2088, 0x2467, 0x248F, 0x32C7, 0x3360, 0x33E7, 0xFF18, 0x1CCF8, 0x1D7D6,
    0x1D7E0, 0x1D7EA, 0x1D7F4, 0x1D7FE, 0x1F109, 0x1FBF8],
    []⟩,
  ⟨'9', [0x2079, 0x2089, 0x2468, 0x2490, 0x32C8, 0x3361, 0x33E8, 0xFF19, 0x1CCF9, 0x1D7D7,
    0x1D7E1, 0x1D7EB, 0x1D7F5, 0x1D7FF, 0x1F10A, 0x1FBF9],
    []⟩
]

/-- Characters that decompose to a text that begins with a capital letter. -/
def capitalOrigins : List Origin := [
  ⟨'A', [0x100, 0x102, 0x104, 0x1CD, 0x1DE, 0x1E0, 0x1FA, 0x200, 0x202, 0x226, 0x1D2C, 0x1E00,
    0x1EA0, 0x1EA2, 0x1EA4, 0x1EA6, 0x1EA8, 0x1EAA, 0x1EAC, 0x1EAE, 0x1EB0, 0x1EB2, 0x1EB4,
    0x1EB6, 0x212B, 0x24B6, 0x3373, 0x33DF, 0xFF21, 0x1CCD6, 0x1D400, 0x1D434, 0x1D468, 0x1D49C,
    0x1D4D0, 0x1D504, 0x1D538, 0x1D56C, 0x1D5A0, 0x1D5D4, 0x1D608, 0x1D63C, 0x1D670, 0x1F130],
    [(0xC0, 0xC5)]⟩,
  ⟨'B', [0x1D2E, 0x1E02, 0x1E04, 0x1E06, 0x212C, 0x24B7, 0x33C3, 0xFF22, 0x1CCD7, 0x1D401,
    0x1D435, 0x1D469, 0x1D4D1, 0x1D505, 0x1D539, 0x1D56D, 0x1D5A1, 0x1D5D5, 0x1D609, 0x1D63D,
    0x1D671, 0x1F131],
    []⟩,
  ⟨'C', [0xC7, 0x106, 0x108, 0x10A, 0x10C, 0x1E08, 0x2102, 0x212D, 0x216D, 0x24B8, 0xA7F2, 0xFF23,
    0x1CCD8, 0x1D402, 0x1D436, 0x1D46A, 0x1D49E, 0x1D4D2, 0x1D56E, 0x1D5A2, 0x1D5D6, 0x1D60A,
    0x1D63E, 0x1D672, 0x1F12B, 0x1F12D, 0x1F132],
    [(0x33C6, 0x33C7)]⟩,
  ⟨'D', [0x10E, 0x1D30, 0x1E0A, 0x1E0C, 0x1E0E, 0x1E10, 0x1E12, 0x2145, 0x216E, 0x24B9, 0xFF24,
    0x1CCD9, 0x1D403, 0x1D437, 0x1D46B, 0x1D49F, 0x1D4D3, 0x1D507, 0x1D53B, 0x1D56F, 0x1D5A3,
    0x1D5D7, 0x1D60B, 0x1D63F, 0x1D673, 0x1F133, 0x1F190],
    [(0x1C4, 0x1C5), (0x1F1, 0x1F2)]⟩,
  ⟨'E', [0x112, 0x114, 0x116, 0x118, 0x11A, 0x204, 0x206, 0x228, 0x1D31, 0x1E14, 0x1E16, 0x1E18,
    0x1E1A, 0x1E1C, 0x1EB8, 0x1EBA, 0x1EBC, 0x1EBE, 0x1EC0, 0x1EC2, 0x1EC4, 0x1EC6, 0x2130,
    0x24BA, 0xFF25, 0x1CCDA, 0x1D404, 0x1D438, 0x1D46C, 0x1D4D4, 0x1D508, 0x1D53C, 0x1D570,
    0x1D5A4, 0x1D5D8, 0x1D60C, 0x1D640, 0x1D674, 0x1F134],
    [(0xC8, 0xCB)]⟩,
  ⟨'F', [0x1E1E, 0x2131, 0x213B, 0x24BB, 0xA7F3, 0xFF26, 0x1CCDB, 0x1D405, 0x1D439, 0x1D46D,
    0x1D4D5, 0x1D509, 0x1D53D, 0x1D571, 0x1D5A5, 0x1D5D9, 0x1D60D, 0x1D641, 0x1D675, 0x1F135],
    []⟩,
  ⟨'G', [0x11C, 0x11E, 0x120, 0x122, 0x1E6, 0x1F4, 0x1D33, 0x1E20, 0x24BC, 0x3387, 0x3393, 0x33AC,
    0x33C9, 0xFF27, 0x1CCDC, 0x1D406, 0x1D43A, 0x1D46E, 0x1D4A2, 0x1D4D6, 0x1D50A, 0x1D53E,
    0x1D572, 0x1D5A6, 0x1D5DA, 0x1D60E, 0x1D642, 0x1D676, 0x1F136],
    []⟩,
  ⟨'H', [0x124, 0x21E, 0x1D34, 0x1E22, 0x1E24, 0x1E26, 0x1E28, 0x1E2A, 0x24BD, 0x32CC, 0x3390,
    0x33CB, 0xFF28, 0x1CCDD, 0x1D407, 0x1D43B, 0x1D46F, 0x1D4D7, 0x1D573, 0x1D5A7, 0x1D5DB,
    0x1D60F, 0x1D643, 0x1D677, 0x1F137, 0x1F14A],
    [(0x210B, 0x210D)]⟩,
  ⟨'I', [0x128, 0x12A, 0x12C, 0x12E, 0x130, 0x132, 0x1CF, 0x208, 0x20A, 0x1D35, 0x1E2C, 0x1E2E,
    0x1EC8, 0x1ECA, 0x2168, 0x24BE, 0x337A, 0xFF29, 0x1CCDE, 0x1D408, 0x1D43C, 0x1D470, 0x1D4D8,
    0x1D540, 0x1D574, 0x1D5A8, 0x1D5DC, 0x1D610, 0x1D644, 0x1D678, 0x1F138],
    [(0xCC, 0xCF), (0x2110, 0x2111), (0x2160, 0x2163)]⟩,
  ⟨'J', [0x134, 0x1D36, 0x24BF, 0xFF2A, 0x1CCDF, 0x1D409, 0x1D43D, 0x1D471, 0x1D4A5, 0x1D4D9,
    0x1D50D, 0x1D541, 0x1D575, 0x1D5A9, 0x1D5DD, 0x1D611, 0x1D645, 0x1D679, 0x1F139],
    []⟩,
  ⟨'K', [0x136, 0x1E8, 0x1D37, 0x1E30, 0x1E32, 0x1E34, 0x212A, 0x24C0, 0x3385, 0xFF2B, 0x1CCE0,
    0x1D40A, 0x1D43E, 0x1D472, 0x1D4A6, 0x1D4DA, 0x1D50E, 0x1D542, 0x1D576, 0x1D5AA, 0x1D5DE,
    0x1D612, 0x1D646, 0x1D67A, 0x1F13A],
    [(0x33CD, 0x33CE)]⟩,
  ⟨'L', [0x139, 0x13B, 0x13D, 0x13F, 0x1D38, 0x1E36, 0x1E38, 0x1E3A, 0x1E3C, 0x2112, 0x216C,
    0x24C1, 0x32CF, 0xFF2C, 0x1CCE1, 0x1D40B, 0x1D43F, 0x1D473, 0x1D4DB, 0x1D50F, 0x1D543,
    0x1D577, 0x1D5AB, 0x1D5DF, 0x1D613, 0x1D647, 0x1D67B, 0x1F13B],
    [(0x1C7, 0x1C8)]⟩,
  ⟨'M', [0x1D39, 0x1E3E, 0x1E40, 0x1E42, 0x2133, 0x216F, 0x24C2, 0x3386, 0x3392, 0x33AB, 0x33B9,
    0x33BF, 0x33C1, 0xFF2D, 0x1CCE2, 0x1D40C, 0x1D440, 0x1D474, 0x1D4DC, 0x1D510, 0x1D544,
    0x1D578, 0x1D5AC, 0x1D5E0, 0x1D614, 0x1D648, 0x1D67C, 0x1F13C, 0x1F14B],
    [(0x1F16A, 0x1F16C)]⟩,
  ⟨'N', [0xD1, 0x143, 0x145, 0x147, 0x1F8, 0x1D3A, 0x1E44, 0x1E46, 0x1E48, 0x1E4A, 0x24C3, 0xFF2E,
    0x1CCE3, 0x1D40D, 0x1D441, 0x1D475, 0x1D4A9, 0x1D4DD, 0x1D511, 0x1D579, 0x1D5AD, 0x1D5E1,
    0x1D615, 0x1D649, 0x1D67D, 0x1F13D],
    [(0x1CA, 0x1CB), (0x2115, 0x2116)]⟩,
  ⟨'O', [0x14C, 0x14E, 0x150, 0x1A0, 0x1D1, 0x1EA, 0x1EC, 0x20C, 0x20E, 0x22A, 0x22C, 0x22E,
    0x230, 0x1D3C, 0x1E4C, 0x1E4E, 0x1E50, 0x1E52, 0x1ECC, 0x1ECE, 0x1ED0, 0x1ED2, 0x1ED4, 0x1ED6,
    0x1ED8, 0x1EDA, 0x1EDC, 0x1EDE, 0x1EE0, 0x1EE2, 0x24C4, 0xFF2F, 0x1CCE4, 0x1D40E, 0x1D442,
    0x1D476, 0x1D4AA, 0x1D4DE, 0x1D512, 0x1D546, 0x1D57A, 0x1D5AE, 0x1D5E2, 0x1D616, 0x1D64A,
    0x1D67E, 0x1F13E],
    [(0xD2, 0xD6)]⟩,
  ⟨'P', [0x1D3E, 0x1E54, 0x1E56, 0x2119, 0x24C5, 0x3250, 0x33A9, 0x33D7, 0xFF30, 0x1CCE5, 0x1D40F,
    0x1D443, 0x1D477, 0x1D4AB, 0x1D4DF, 0x1D513, 0x1D57B, 0x1D5AF, 0x1D5E3, 0x1D617, 0x1D64B,
    0x1D67F, 0x1F13F, 0x1F14E],
    [(0x33D9, 0x33DA)]⟩,
  ⟨'Q', [0x211A, 0x24C6, 0xA7F4, 0xFF31, 0x1CCE6, 0x1D410, 0x1D444, 0x1D478, 0x1D4AC, 0x1D4E0,
    0x1D514, 0x1D57C, 0x1D5B0, 0x1D5E4, 0x1D618, 0x1D64C, 0x1D680, 0x1F140],
    []⟩,
  ⟨'R', [0x154, 0x156, 0x158, 0x210, 0x212, 0x1D3F, 0x1E58, 0x1E5A, 0x1E5C, 0x1E5E, 0x20A8,
    0x24C7, 0xFF32, 0x1CCE7, 0x1D411, 0x1D445, 0x1D479, 0x1D4E1, 0x1D57D, 0x1D5B1, 0x1D5E5,
    0x1D619, 0x1D64D, 0x1D681, 0x1F12C, 0x1F141],
    [(0x211B, 0x211D)]⟩,
  ⟨'S', [0x15A, 0x15C, 0x15E, 0x160, 0x218, 0x1E60, 0x1E62, 0x1E64, 0x1E66, 0x1E68, 0x2120,
    0x24C8, 0x33DC, 0xA7F1, 0xFF33, 0x1CCE8, 0x1D412, 0x1D446, 0x1D47A, 0x1D4AE, 0x1D4E2, 0x1D516,
    0x1D54A, 0x1D57E, 0x1D5B2, 0x1D5E6, 0x1D61A, 0x1D64E, 0x1D682, 0x1F142],
    [(0x1F14C, 0x1F14D)]⟩,
  ⟨'T', [0x162, 0x164, 0x21A, 0x1D40, 0x1E6A, 0x1E6C, 0x1E6E, 0x1E70, 0x24C9, 0x3394, 0xFF34,
    0x1CCE9, 0x1D413, 0x1D447, 0x1D47B, 0x1D4AF, 0x1D4E3, 0x1D517, 0x1D54B, 0x1D57F, 0x1D5B3,
    0x1D5E7, 0x1D61B, 0x1D64F, 0x1D683, 0x1F143],
    [(0x2121, 0x2122)]⟩,
  ⟨'U', [0x168, 0x16A, 0x16C, 0x16E, 0x170, 0x172, 0x1AF, 0x1D3, 0x1D5, 0x1D7, 0x1D9, 0x1DB,
    0x214, 0x216, 0x1D41, 0x1E72, 0x1E74, 0x1E76, 0x1E78, 0x1E7A, 0x1EE4, 0x1EE6, 0x1EE8, 0x1EEA,
    0x1EEC, 0x1EEE, 0x1EF0, 0x24CA, 0xFF35, 0x1CCEA, 0x1D414, 0x1D448, 0x1D47C, 0x1D4B0, 0x1D4E4,
    0x1D518, 0x1D54C, 0x1D580, 0x1D5B4, 0x1D5E8, 0x1D61C, 0x1D650, 0x1D684, 0x1F144],
    [(0xD9, 0xDC)]⟩,
  ⟨'V', [0x1E7C, 0x1E7E, 0x24CB, 0x2C7D, 0x33DE, 0xFF36, 0x1CCEB, 0x1D415, 0x1D449, 0x1D47D,
    0x1D4B1, 0x1D4E5, 0x1D519, 0x1D54D, 0x1D581, 0x1D5B5, 0x1D5E9, 0x1D61D, 0x1D651, 0x1D685,
    0x1F145],
    [(0x2164, 0x2167)]⟩,
  ⟨'W', [0x174, 0x1D42, 0x1E80, 0x1E82, 0x1E84, 0x1E86, 0x1E88, 0x24CC, 0x33DD, 0xFF37, 0x1CCEC,
    0x1D416, 0x1D44A, 0x1D47E, 0x1D4B2, 0x1D4E6, 0x1D51A, 0x1D54E, 0x1D582, 0x1D5B6, 0x1D5EA,
    0x1D61E, 0x1D652, 0x1D686, 0x1F12E, 0x1F146, 0x1F14F],
    []⟩,
  ⟨'X', [0x1E8A, 0x1E8C, 0x24CD, 0xFF38, 0x1CCED, 0x1D417, 0x1D44B, 0x1D47F, 0x1D4B3, 0x1D4E7,
    0x1D51B, 0x1D54F, 0x1D583, 0x1D5B7, 0x1D5EB, 0x1D61F, 0x1D653, 0x1D687, 0x1F147],
    [(0x2169, 0x216B)]⟩,
  ⟨'Y', [0xDD, 0x176, 0x178, 0x232, 0x1E8E, 0x1EF2, 0x1EF4, 0x1EF6, 0x1EF8, 0x24CE, 0xFF39,
    0x1CCEE, 0x1D418, 0x1D44C, 0x1D480, 0x1D4B4, 0x1D4E8, 0x1D51C, 0x1D550, 0x1D584, 0x1D5B8,
    0x1D5EC, 0x1D620, 0x1D654, 0x1D688, 0x1F148],
    []⟩,
  ⟨'Z', [0x179, 0x17B, 0x17D, 0x1E90, 0x1E92, 0x1E94, 0x2124, 0x2128, 0x24CF, 0xFF3A, 0x1CCEF,
    0x1D419, 0x1D44D, 0x1D481, 0x1D4B5, 0x1D4E9, 0x1D585, 0x1D5B9, 0x1D5ED, 0x1D621, 0x1D655,
    0x1D689, 0x1F149],
    []⟩
]

/-- Characters that decompose to a text that begins with a small letter. -/
def smallOrigins : List Origin := [
  ⟨'a', [0xAA, 0x101, 0x103, 0x105, 0x1CE, 0x1DF, 0x1E1, 0x1FB, 0x201, 0x203, 0x227, 0x1D43,
    0x1E01, 0x1E9A, 0x1EA1, 0x1EA3, 0x1EA5, 0x1EA7, 0x1EA9, 0x1EAB, 0x1EAD, 0x1EAF, 0x1EB1,
    0x1EB3, 0x1EB5, 0x1EB7, 0x2090, 0x24D0, 0x33C2, 0xFF41, 0x1D41A, 0x1D44E, 0x1D482, 0x1D4B6,
    0x1D4EA, 0x1D51E, 0x1D552, 0x1D586, 0x1D5BA, 0x1D5EE, 0x1D622, 0x1D656, 0x1D68A],
    [(0xE0, 0xE5), (0x2100, 0x2101)]⟩,
  ⟨'b', [0x1D47, 0x1E03, 0x1E05, 0x1E07, 0x24D1, 0x3374, 0xFF42, 0x1D41B, 0x1D44F, 0x1D483,
    0x1D4B7, 0x1D4EB, 0x1D51F, 0x1D553, 0x1D587, 0x1D5BB, 0x1D5EF, 0x1D623, 0x1D657, 0x1D68B],
    []⟩,
  ⟨'c', [0xE7, 0x107, 0x109, 0x10B, 0x10D, 0x1D9C, 0x1E09, 0x217D, 0x24D2, 0x3388, 0x339D, 0x33A0,
    0x33A4, 0xFF43, 0x1D41C, 0x1D450, 0x1D484, 0x1D4B8, 0x1D4EC, 0x1D520, 0x1D554, 0x1D588,
    0x1D5BC, 0x1D5F0, 0x1D624, 0x1D658, 0x1D68C],
    [(0x2105, 0x2106), (0x33C4, 0x33C5)]⟩,
  ⟨'d', [0x10F, 0x1C6, 0x1F3, 0x1D48, 0x1E0B, 0x1E0D, 0x1E0F, 0x1E11, 0x1E13, 0x2146, 0x217E,
    0x24D3, 0x3372, 0x3397, 0x33C8, 0xFF44, 0x1D41D, 0x1D451, 0x1D485, 0x1D4B9, 0x1D4ED, 0x1D521,
    0x1D555, 0x1D589, 0x1D5BD, 0x1D5F1, 0x1D625, 0x1D659, 0x1D68D],
    [(0x3377, 0x3379)]⟩,
  ⟨'e', [0x113, 0x115, 0x117, 0x119, 0x11B, 0x205, 0x207, 0x229, 0x1D49, 0x1E15, 0x1E17, 0x1E19,
    0x1E1B, 0x1E1D, 0x1EB9, 0x1EBB, 0x1EBD, 0x1EBF, 0x1EC1, 0x1EC3, 0x1EC5, 0x1EC7, 0x2091,
    0x212F, 0x2147, 0x24D4, 0xFF45, 0x1D41E, 0x1D452, 0x1D486, 0x1D4EE, 0x1D522, 0x1D556, 0x1D58A,
    0x1D5BE, 0x1D5F2, 0x1D626, 0x1D65A, 0x1D68E],
    [(0xE8, 0xEB), (0x32CD, 0x32CE)]⟩,
  ⟨'f', [0x1DA0, 0x1E1F, 0x24D5, 0x3399, 0xFF46, 0x1D41F, 0x1D453, 0x1D487, 0x1D4BB, 0x1D4EF,
    0x1D523, 0x1D557, 0x1D58B, 0x1D5BF, 0x1D5F3, 0x1D627, 0x1D65B, 0x1D68F],
    [(0xFB00, 0xFB04)]⟩,
  ⟨'g', [0x11D, 0x11F, 0x121, 0x123, 0x1E7, 0x1F5, 0x1D4D, 0x1E21, 0x210A, 0x24D6, 0x33FF, 0xFF47,
    0x1D420, 0x1D454, 0x1D488, 0x1D4F0, 0x1D524, 0x1D558, 0x1D58C, 0x1D5C0, 0x1D5F4, 0x1D628,
    0x1D65C, 0x1D690],
    []⟩,
  ⟨'h', [0x125, 0x21F, 0x2B0, 0x1E23, 0x1E25, 0x1E27, 0x1E29, 0x1E2B, 0x1E96, 0x2095, 0x210E,
    0x24D7, 0x3371, 0x33CA, 0xFF48, 0x1D421, 0x1D489, 0x1D4BD, 0x1D4F1, 0x1D525, 0x1D559, 0x1D58D,
    0x1D5C1, 0x1D5F5, 0x1D629, 0x1D65D, 0x1D691],
    []⟩,
  ⟨'i', [0x129, 0x12B, 0x12D, 0x12F, 0x133, 0x1D0, 0x209, 0x20B, 0x1D62, 0x1E2D, 0x1E2F, 0x1EC9,
    0x1ECB, 0x2071, 0x2139, 0x2148, 0x2178, 0x24D8, 0x33CC, 0xFF49, 0x1D422, 0x1D456, 0x1D48A,
    0x1D4BE, 0x1D4F2, 0x1D526, 0x1D55A, 0x1D58E, 0x1D5C2, 0x1D5F6, 0x1D62A, 0x1D65E, 0x1D692],
    [(0xEC, 0xEF), (0x2170, 0x2173)]⟩,
  ⟨'j', [0x135, 0x1F0, 0x2B2, 0x2149, 0x24D9, 0x2C7C, 0xFF4A, 0x1D423, 0x1D457, 0x1D48B, 0x1D4BF,
    0x1D4F3, 0x1D527, 0x1D55B, 0x1D58F, 0x1D5C3, 0x1D5F7, 0x1D62B, 0x1D65F, 0x1D693],
    []⟩,
  ⟨'k', [0x137, 0x1E9, 0x1D4F, 0x1E31, 0x1E33, 0x1E35, 0x2096, 0x24DA, 0x3384, 0x3389, 0x338F,
    0x3391, 0x3398, 0x339E, 0x33A2, 0x33A6, 0x33AA, 0x33B8, 0x33BE, 0x33C0, 0x33CF, 0xFF4B,
    0x1D424, 0x1D458, 0x1D48C, 0x1D4C0, 0x1D4F4, 0x1D528, 0x1D55C, 0x1D590, 0x1D5C4, 0x1D5F8,
    0x1D62C, 0x1D660, 0x1D694],
    []⟩,
  ⟨'l', [0x13A, 0x13C, 0x13E, 0x140, 0x1C9, 0x2E1, 0x1E37, 0x1E39, 0x1E3B, 0x1E3D, 0x2097, 0x2113,
    0x217C, 0x24DB, 0xFF4C, 0x1D425, 0x1D459, 0x1D48D, 0x1D4C1, 0x1D4F5, 0x1D529, 0x1D55D,
    0x1D591, 0x1D5C5, 0x1D5F9, 0x1D62D, 0x1D661, 0x1D695],
    [(0x33D0, 0x33D3)]⟩,
  ⟨'m', [0x1D50, 0x1E3F, 0x1E41, 0x1E43, 0x2098, 0x217F, 0x24DC, 0x3383, 0x338E, 0x3396, 0x339C,
    0x339F, 0x33A1, 0x33A3, 0x33A5, 0x33B3, 0x33B7, 0x33BD, 0xFF4D, 0x1D426, 0x1D45A, 0x1D48E,
    0x1D4C2, 0x1D4F6, 0x1D52A, 0x1D55E, 0x1D592, 0x1D5C6, 0x1D5FA, 0x1D62E, 0x1D662, 0x1D696],
    [(0x33A7, 0x33A8), (0x33D4, 0x33D6)]⟩,
  ⟨'n', [0xF1, 0x144, 0x146, 0x148, 0x1CC, 0x1F9, 0x1E45, 0x1E47, 0x1E49, 0x1E4B, 0x207F, 0x2099,
    0x24DD, 0x3381, 0x338B, 0x339A, 0x33B1, 0x33B5, 0x33BB, 0xFF4E, 0x1D427, 0x1D45B, 0x1D48F,
    0x1D4C3, 0x1D4F7, 0x1D52B, 0x1D55F, 0x1D593, 0x1D5C7, 0x1D5FB, 0x1D62F, 0x1D663, 0x1D697],
    []⟩,
  ⟨'o', [0xBA, 0x14D, 0x14F, 0x151, 0x1A1, 0x1D2, 0x1EB, 0x1ED, 0x20D, 0x20F, 0x22B, 0x22D, 0x22F,
    0x231, 0x1D52, 0x1E4D, 0x1E4F, 0x1E51, 0x1E53, 0x1ECD, 0x1ECF, 0x1ED1, 0x1ED3, 0x1ED5, 0x1ED7,
    0x1ED9, 0x1EDB, 0x1EDD, 0x1EDF, 0x1EE1, 0x1EE3, 0x2092, 0x2134, 0x24DE, 0x3375, 0xFF4F,
    0x1D428, 0x1D45C, 0x1D490, 0x1D4F8, 0x1D52C, 0x1D560, 0x1D594, 0x1D5C8, 0x1D5FC, 0x1D630,
    0x1D664, 0x1D698],
    [(0xF2, 0xF6)]⟩,
  ⟨'p', [0x1D56, 0x1E55, 0x1E57, 0x209A, 0x24DF, 0x3376, 0x3380, 0x338A, 0x33B0, 0x33B4, 0x33BA,
    0x33D8, 0xFF50, 0x1D429, 0x1D45D, 0x1D491, 0x1D4C5, 0x1D4F9, 0x1D52D, 0x1D561, 0x1D595,
    0x1D5C9, 0x1D5FD, 0x1D631, 0x1D665, 0x1D699],
    []⟩,
  ⟨'q', [0x24E0, 0xFF51, 0x107A5, 0x1D42A, 0x1D45E, 0x1D492, 0x1D4C6, 0x1D4FA, 0x1D52E, 0x1D562,
    0x1D596, 0x1D5CA, 0x1D5FE, 0x1D632, 0x1D666, 0x1D69A],
    []⟩,
  ⟨'r', [0x155, 0x157, 0x159, 0x211, 0x213, 0x2B3, 0x1D63, 0x1E59, 0x1E5B, 0x1E5D, 0x1E5F, 0x24E1,
    0xFF52, 0x1D42B, 0x1D45F, 0x1D493, 0x1D4C7, 0x1D4FB, 0x1D52F, 0x1D563, 0x1D597, 0x1D5CB,
    0x1D5FF, 0x1D633, 0x1D667, 0x1D69B],
    [(0x33AD, 0x33AF)]⟩,
  ⟨'s', [0x15B, 0x15D, 0x15F, 0x161, 0x17F, 0x219, 0x2E2, 0x1E61, 0x1E63, 0x1E65, 0x1E67, 0x1E69,
    0x1E9B, 0x209B, 0x24E2, 0x33DB, 0xFF53, 0x1D42C, 0x1D460, 0x1D494, 0x1D4C8, 0x1D4FC, 0x1D530,
    0x1D564, 0x1D598, 0x1D5CC, 0x1D600, 0x1D634, 0x1D668, 0x1D69C],
    [(0xFB05, 0xFB06)]⟩,
  ⟨'t', [0x163, 0x165, 0x21B, 0x1D57, 0x1E6B, 0x1E6D, 0x1E6F, 0x1E71, 0x1E97, 0x209C, 0x24E3,
    0xFF54, 0x1D42D, 0x1D461, 0x1D495, 0x1D4C9, 0x1D4FD, 0x1D531, 0x1D565, 0x1D599, 0x1D5CD,
    0x1D601, 0x1D635, 0x1D669, 0x1D69D],
    []⟩,
  ⟨'u', [0x169, 0x16B, 0x16D, 0x16F, 0x171, 0x173, 0x1B0, 0x1D4, 0x1D6, 0x1D8, 0x1DA, 0x1DC,
    0x215, 0x217, 0x1D58, 0x1D64, 0x1E73, 0x1E75, 0x1E77, 0x1E79, 0x1E7B, 0x1EE5, 0x1EE7, 0x1EE9,
    0x1EEB, 0x1EED, 0x1EEF, 0x1EF1, 0x24E4, 0xFF55, 0x1D42E, 0x1D462, 0x1D496, 0x1D4CA, 0x1D4FE,
    0x1D532, 0x1D566, 0x1D59A, 0x1D5CE, 0x1D602, 0x1D636, 0x1D66A, 0x1D69E],
    [(0xF9, 0xFC)]⟩,
  ⟨'v', [0x1D5B, 0x1D65, 0x1E7D, 0x1E7F, 0x24E5, 0xFF56, 0x1D42F, 0x1D463, 0x1D497, 0x1D4CB,
    0x1D4FF, 0x1D533, 0x1D567, 0x1D59B, 0x1D5CF, 0x1D603, 0x1D637, 0x1D66B, 0x1D69F],
    [(0x2174, 0x2177)]⟩,
  ⟨'w', [0x175, 0x2B7, 0x1E81, 0x1E83, 0x1E85, 0x1E87, 0x1E89, 0x1E98, 0x209D, 0x24E6, 0xFF57,
    0x1D430, 0x1D464, 0x1D498, 0x1D4CC, 0x1D500, 0x1D534, 0x1D568, 0x1D59C, 0x1D5D0, 0x1D604,
    0x1D638, 0x1D66C, 0x1D6A0],
    []⟩,
  ⟨'x', [0x2E3, 0x1E8B, 0x1E8D, 0x2093, 0x24E7, 0xFF58, 0x1D431, 0x1D465, 0x1D499, 0x1D4CD,
    0x1D501, 0x1D535, 0x1D569, 0x1D59D, 0x1D5D1, 0x1D605, 0x1D639, 0x1D66D, 0x1D6A1],
    [(0x2179, 0x217B)]⟩,
  ⟨'y', [0xFD, 0xFF, 0x177, 0x233, 0x2B8, 0x1E8F, 0x1E99, 0x1EF3, 0x1EF5, 0x1EF7, 0x1EF9, 0x209E,
    0x24E8, 0xFF59, 0x1D432, 0x1D466, 0x1D49A, 0x1D4CE, 0x1D502, 0x1D536, 0x1D56A, 0x1D59E,
    0x1D5D2, 0x1D606, 0x1D63A, 0x1D66E, 0x1D6A2],
    []⟩,
  ⟨'z', [0x17A, 0x17C, 0x17E, 0x1DBB, 0x1E91, 0x1E93, 0x1E95, 0x209F, 0x24E9, 0xFF5A, 0x1D433,
    0x1D467, 0x1D49B, 0x1D4CF, 0x1D503, 0x1D537, 0x1D56B, 0x1D59F, 0x1D5D3, 0x1D607, 0x1D63B,
    0x1D66F, 0x1D6A3],
    []⟩
]

/-- The ASCII letter or digit that begins the compatibility decomposition of a character outside
ASCII, if one does. -/
def compatibilityFirst? (c : Char) : Option Char :=
  ((digitOrigins ++ capitalOrigins ++ smallOrigins).find? (·.covers c)).map Origin.first

end TermScan
