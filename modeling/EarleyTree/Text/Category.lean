/-!
The general category of every character.
-/
namespace EarleyTree.Text

/-- The general categories by their abbreviations: letters, marks, numbers, punctuation, symbols,
separators and others. -/
inductive Category
  | lu | ll | lt | lm | lo
  | mn | mc | me
  | nd | nl | no
  | pc | pd | ps | pe | pi | pf | po
  | sm | sc | sk | so
  | zs | zl | zp
  | cc | cf | cs | co | cn
  deriving DecidableEq, Repr

/-- From `first` on, characters at an even distance are in one category, the others in another. -/
structure CategoryRun where
  first : Nat
  even : Category
  odd : Category

def categoryRunsBelow1000 : List CategoryRun :=
  [⟨0, .cc, .cc⟩, ⟨32, .zs, .zs⟩, ⟨33, .po, .po⟩, ⟨36, .sc, .sc⟩, ⟨37, .po, .po⟩, ⟨40, .ps, .ps⟩,
    ⟨41, .pe, .pe⟩, ⟨42, .po, .sm⟩, ⟨45, .pd, .pd⟩, ⟨46, .po, .po⟩, ⟨48, .nd, .nd⟩, ⟨58, .po, .po⟩,
    ⟨60, .sm, .sm⟩, ⟨63, .po, .po⟩, ⟨65, .lu, .lu⟩, ⟨91, .ps, .ps⟩, ⟨92, .po, .po⟩, ⟨93, .pe, .pe⟩,
    ⟨94, .sk, .pc⟩, ⟨97, .ll, .ll⟩, ⟨123, .ps, .ps⟩, ⟨124, .sm, .pe⟩, ⟨127, .cc, .cc⟩,
    ⟨160, .zs, .zs⟩, ⟨161, .po, .po⟩, ⟨162, .sc, .sc⟩, ⟨166, .so, .so⟩, ⟨167, .po, .po⟩,
    ⟨168, .sk, .sk⟩, ⟨169, .so, .so⟩, ⟨170, .lo, .lo⟩, ⟨171, .pi, .pi⟩, ⟨172, .sm, .sm⟩,
    ⟨173, .cf, .cf⟩, ⟨174, .so, .sk⟩, ⟨177, .sm, .sm⟩, ⟨178, .no, .no⟩, ⟨180, .sk, .sk⟩,
    ⟨181, .ll, .ll⟩, ⟨182, .po, .po⟩, ⟨184, .sk, .sk⟩, ⟨185, .no, .no⟩, ⟨186, .lo, .lo⟩,
    ⟨187, .pf, .pf⟩, ⟨188, .no, .no⟩, ⟨191, .po, .po⟩, ⟨192, .lu, .lu⟩, ⟨215, .sm, .sm⟩,
    ⟨216, .lu, .lu⟩, ⟨223, .ll, .ll⟩, ⟨247, .sm, .sm⟩, ⟨248, .ll, .ll⟩, ⟨256, .lu, .ll⟩,
    ⟨312, .ll, .lu⟩, ⟨329, .ll, .lu⟩, ⟨377, .lu, .ll⟩, ⟨383, .ll, .ll⟩, ⟨385, .lu, .lu⟩,
    ⟨387, .ll, .lu⟩, ⟨391, .lu, .ll⟩, ⟨394, .lu, .lu⟩, ⟨396, .ll, .ll⟩, ⟨398, .lu, .lu⟩,
    ⟨402, .ll, .ll⟩, ⟨403, .lu, .lu⟩, ⟨405, .ll, .ll⟩, ⟨406, .lu, .lu⟩, ⟨409, .ll, .ll⟩,
    ⟨412, .lu, .lu⟩, ⟨414, .ll, .ll⟩, ⟨415, .lu, .lu⟩, ⟨417, .ll, .lu⟩, ⟨423, .lu, .ll⟩,
    ⟨427, .ll, .lu⟩, ⟨431, .lu, .ll⟩, ⟨434, .lu, .lu⟩, ⟨436, .ll, .lu⟩, ⟨440, .lu, .lu⟩,
    ⟨441, .ll, .ll⟩, ⟨443, .lo, .lo⟩, ⟨444, .lu, .lu⟩, ⟨445, .ll, .ll⟩, ⟨448, .lo, .lo⟩,
    ⟨452, .lu, .lu⟩, ⟨453, .lt, .lt⟩, ⟨454, .ll, .ll⟩, ⟨455, .lu, .lu⟩, ⟨456, .lt, .lt⟩,
    ⟨457, .ll, .ll⟩, ⟨458, .lu, .lu⟩, ⟨459, .lt, .lt⟩, ⟨460, .ll, .lu⟩, ⟨477, .ll, .lu⟩,
    ⟨496, .ll, .ll⟩, ⟨497, .lu, .lu⟩, ⟨498, .lt, .lt⟩, ⟨499, .ll, .lu⟩, ⟨503, .lu, .lu⟩,
    ⟨505, .ll, .lu⟩, ⟨564, .ll, .ll⟩, ⟨570, .lu, .lu⟩, ⟨572, .ll, .ll⟩, ⟨573, .lu, .lu⟩,
    ⟨575, .ll, .ll⟩, ⟨577, .lu, .ll⟩, ⟨580, .lu, .lu⟩, ⟨583, .ll, .lu⟩, ⟨592, .ll, .ll⟩,
    ⟨660, .lo, .lo⟩, ⟨661, .ll, .ll⟩, ⟨688, .lm, .lm⟩, ⟨706, .sk, .sk⟩, ⟨710, .lm, .lm⟩,
    ⟨722, .sk, .sk⟩, ⟨736, .lm, .lm⟩, ⟨741, .sk, .sk⟩, ⟨748, .lm, .sk⟩, ⟨752, .sk, .sk⟩,
    ⟨768, .mn, .mn⟩, ⟨880, .lu, .ll⟩, ⟨884, .lm, .lm⟩, ⟨885, .sk, .sk⟩, ⟨886, .lu, .lu⟩,
    ⟨887, .ll, .ll⟩, ⟨888, .cn, .cn⟩, ⟨890, .lm, .lm⟩, ⟨891, .ll, .ll⟩, ⟨894, .po, .po⟩,
    ⟨895, .lu, .lu⟩, ⟨896, .cn, .cn⟩, ⟨900, .sk, .sk⟩, ⟨902, .lu, .po⟩, ⟨905, .lu, .lu⟩,
    ⟨907, .cn, .lu⟩, ⟨911, .lu, .ll⟩, ⟨914, .lu, .lu⟩, ⟨930, .cn, .cn⟩, ⟨931, .lu, .lu⟩,
    ⟨940, .ll, .ll⟩, ⟨975, .lu, .lu⟩, ⟨976, .ll, .ll⟩, ⟨978, .lu, .lu⟩, ⟨981, .ll, .ll⟩,
    ⟨984, .lu, .ll⟩, ⟨1008, .ll, .ll⟩, ⟨1012, .lu, .lu⟩, ⟨1013, .ll, .ll⟩, ⟨1014, .sm, .sm⟩,
    ⟨1015, .lu, .ll⟩, ⟨1018, .lu, .lu⟩, ⟨1019, .ll, .ll⟩, ⟨1021, .lu, .lu⟩, ⟨1072, .ll, .ll⟩,
    ⟨1120, .lu, .ll⟩, ⟨1154, .so, .so⟩, ⟨1155, .mn, .mn⟩, ⟨1160, .me, .me⟩, ⟨1162, .lu, .ll⟩,
    ⟨1217, .lu, .ll⟩, ⟨1231, .ll, .lu⟩, ⟨1328, .cn, .cn⟩, ⟨1329, .lu, .lu⟩, ⟨1367, .cn, .cn⟩,
    ⟨1369, .lm, .lm⟩, ⟨1370, .po, .po⟩, ⟨1376, .ll, .ll⟩, ⟨1417, .po, .po⟩, ⟨1418, .pd, .pd⟩,
    ⟨1419, .cn, .cn⟩, ⟨1421, .so, .so⟩, ⟨1423, .sc, .sc⟩, ⟨1424, .cn, .cn⟩, ⟨1425, .mn, .mn⟩,
    ⟨1470, .pd, .pd⟩, ⟨1471, .mn, .po⟩, ⟨1474, .mn, .po⟩, ⟨1477, .mn, .po⟩, ⟨1480, .cn, .cn⟩,
    ⟨1488, .lo, .lo⟩, ⟨1515, .cn, .cn⟩, ⟨1519, .lo, .lo⟩, ⟨1523, .po, .po⟩, ⟨1525, .cn, .cn⟩,
    ⟨1536, .cf, .cf⟩, ⟨1542, .sm, .sm⟩, ⟨1545, .po, .po⟩, ⟨1547, .sc, .sc⟩, ⟨1548, .po, .po⟩,
    ⟨1550, .so, .so⟩, ⟨1552, .mn, .mn⟩, ⟨1563, .po, .cf⟩, ⟨1566, .po, .po⟩, ⟨1568, .lo, .lo⟩,
    ⟨1600, .lm, .lm⟩, ⟨1601, .lo, .lo⟩, ⟨1611, .mn, .mn⟩, ⟨1632, .nd, .nd⟩, ⟨1642, .po, .po⟩,
    ⟨1646, .lo, .lo⟩, ⟨1648, .mn, .mn⟩, ⟨1649, .lo, .lo⟩, ⟨1748, .po, .po⟩, ⟨1749, .lo, .lo⟩,
    ⟨1750, .mn, .mn⟩, ⟨1757, .cf, .cf⟩, ⟨1758, .so, .so⟩, ⟨1759, .mn, .mn⟩, ⟨1765, .lm, .lm⟩,
    ⟨1767, .mn, .mn⟩, ⟨1769, .so, .so⟩, ⟨1770, .mn, .mn⟩, ⟨1774, .lo, .lo⟩, ⟨1776, .nd, .nd⟩,
    ⟨1786, .lo, .lo⟩, ⟨1789, .so, .so⟩, ⟨1791, .lo, .lo⟩, ⟨1792, .po, .po⟩, ⟨1806, .cn, .cn⟩,
    ⟨1807, .cf, .cf⟩, ⟨1808, .lo, .mn⟩, ⟨1811, .lo, .lo⟩, ⟨1840, .mn, .mn⟩, ⟨1867, .cn, .cn⟩,
    ⟨1869, .lo, .lo⟩, ⟨1958, .mn, .mn⟩, ⟨1969, .lo, .lo⟩, ⟨1970, .cn, .cn⟩, ⟨1984, .nd, .nd⟩,
    ⟨1994, .lo, .lo⟩, ⟨2027, .mn, .mn⟩, ⟨2036, .lm, .lm⟩, ⟨2038, .so, .so⟩, ⟨2039, .po, .po⟩,
    ⟨2042, .lm, .lm⟩, ⟨2043, .cn, .cn⟩, ⟨2045, .mn, .mn⟩, ⟨2046, .sc, .sc⟩, ⟨2048, .lo, .lo⟩,
    ⟨2070, .mn, .mn⟩, ⟨2074, .lm, .lm⟩, ⟨2075, .mn, .mn⟩, ⟨2084, .lm, .lm⟩, ⟨2085, .mn, .mn⟩,
    ⟨2088, .lm, .lm⟩, ⟨2089, .mn, .mn⟩, ⟨2094, .cn, .cn⟩, ⟨2096, .po, .po⟩, ⟨2111, .cn, .cn⟩,
    ⟨2112, .lo, .lo⟩, ⟨2137, .mn, .mn⟩, ⟨2140, .cn, .cn⟩, ⟨2142, .po, .po⟩, ⟨2143, .cn, .cn⟩,
    ⟨2144, .lo, .lo⟩, ⟨2155, .cn, .cn⟩, ⟨2160, .lo, .lo⟩, ⟨2184, .sk, .sk⟩, ⟨2185, .lo, .lo⟩,
    ⟨2191, .cn, .cn⟩, ⟨2192, .cf, .cf⟩, ⟨2194, .cn, .cn⟩, ⟨2200, .mn, .mn⟩, ⟨2208, .lo, .lo⟩,
    ⟨2249, .lm, .lm⟩, ⟨2250, .mn, .mn⟩, ⟨2274, .cf, .cf⟩, ⟨2275, .mn, .mn⟩, ⟨2307, .mc, .mc⟩,
    ⟨2308, .lo, .lo⟩, ⟨2362, .mn, .mc⟩, ⟨2365, .lo, .lo⟩, ⟨2366, .mc, .mc⟩, ⟨2369, .mn, .mn⟩,
    ⟨2377, .mc, .mc⟩, ⟨2381, .mn, .mn⟩, ⟨2382, .mc, .mc⟩, ⟨2384, .lo, .lo⟩, ⟨2385, .mn, .mn⟩,
    ⟨2392, .lo, .lo⟩, ⟨2402, .mn, .mn⟩, ⟨2404, .po, .po⟩, ⟨2406, .nd, .nd⟩, ⟨2416, .po, .po⟩,
    ⟨2417, .lm, .lm⟩, ⟨2418, .lo, .lo⟩, ⟨2433, .mn, .mn⟩, ⟨2434, .mc, .mc⟩, ⟨2436, .cn, .cn⟩,
    ⟨2437, .lo, .lo⟩, ⟨2445, .cn, .cn⟩, ⟨2447, .lo, .lo⟩, ⟨2449, .cn, .cn⟩, ⟨2451, .lo, .lo⟩,
    ⟨2473, .cn, .cn⟩, ⟨2474, .lo, .lo⟩, ⟨2481, .cn, .lo⟩, ⟨2484, .cn, .cn⟩, ⟨2486, .lo, .lo⟩,
    ⟨2490, .cn, .cn⟩, ⟨2492, .mn, .mn⟩, ⟨2493, .lo, .lo⟩, ⟨2494, .mc, .mc⟩, ⟨2497, .mn, .mn⟩,
    ⟨2501, .cn, .cn⟩, ⟨2503, .mc, .mc⟩, ⟨2505, .cn, .cn⟩, ⟨2507, .mc, .mc⟩, ⟨2509, .mn, .mn⟩,
    ⟨2510, .lo, .lo⟩, ⟨2511, .cn, .cn⟩, ⟨2519, .mc, .mc⟩, ⟨2520, .cn, .cn⟩, ⟨2524, .lo, .lo⟩,
    ⟨2526, .cn, .cn⟩, ⟨2527, .lo, .lo⟩, ⟨2530, .mn, .mn⟩, ⟨2532, .cn, .cn⟩, ⟨2534, .nd, .nd⟩,
    ⟨2544, .lo, .lo⟩, ⟨2546, .sc, .sc⟩, ⟨2548, .no, .no⟩, ⟨2554, .so, .so⟩, ⟨2555, .sc, .sc⟩,
    ⟨2556, .lo, .lo⟩, ⟨2557, .po, .po⟩, ⟨2558, .mn, .mn⟩, ⟨2559, .cn, .cn⟩, ⟨2561, .mn, .mn⟩,
    ⟨2563, .mc, .mc⟩, ⟨2564, .cn, .cn⟩, ⟨2565, .lo, .lo⟩, ⟨2571, .cn, .cn⟩, ⟨2575, .lo, .lo⟩,
    ⟨2577, .cn, .cn⟩, ⟨2579, .lo, .lo⟩, ⟨2601, .cn, .cn⟩, ⟨2602, .lo, .lo⟩, ⟨2609, .cn, .cn⟩,
    ⟨2610, .lo, .lo⟩, ⟨2612, .cn, .cn⟩, ⟨2613, .lo, .lo⟩, ⟨2615, .cn, .cn⟩, ⟨2616, .lo, .lo⟩,
    ⟨2618, .cn, .cn⟩, ⟨2620, .mn, .mn⟩, ⟨2621, .cn, .cn⟩, ⟨2622, .mc, .mc⟩, ⟨2625, .mn, .mn⟩,
    ⟨2627, .cn, .cn⟩, ⟨2631, .mn, .mn⟩, ⟨2633, .cn, .cn⟩, ⟨2635, .mn, .mn⟩, ⟨2638, .cn, .cn⟩,
    ⟨2641, .mn, .mn⟩, ⟨2642, .cn, .cn⟩, ⟨2649, .lo, .lo⟩, ⟨2653, .cn, .lo⟩, ⟨2656, .cn, .cn⟩,
    ⟨2662, .nd, .nd⟩, ⟨2672, .mn, .mn⟩, ⟨2674, .lo, .lo⟩, ⟨2677, .mn, .mn⟩, ⟨2678, .po, .po⟩,
    ⟨2679, .cn, .cn⟩, ⟨2689, .mn, .mn⟩, ⟨2691, .mc, .mc⟩, ⟨2692, .cn, .cn⟩, ⟨2693, .lo, .lo⟩,
    ⟨2702, .cn, .cn⟩, ⟨2703, .lo, .lo⟩, ⟨2706, .cn, .cn⟩, ⟨2707, .lo, .lo⟩, ⟨2729, .cn, .cn⟩,
    ⟨2730, .lo, .lo⟩, ⟨2737, .cn, .cn⟩, ⟨2738, .lo, .lo⟩, ⟨2740, .cn, .cn⟩, ⟨2741, .lo, .lo⟩,
    ⟨2746, .cn, .cn⟩, ⟨2748, .mn, .mn⟩, ⟨2749, .lo, .lo⟩, ⟨2750, .mc, .mc⟩, ⟨2753, .mn, .mn⟩,
    ⟨2758, .cn, .cn⟩, ⟨2759, .mn, .mn⟩, ⟨2761, .mc, .cn⟩, ⟨2764, .mc, .mc⟩, ⟨2765, .mn, .mn⟩,
    ⟨2766, .cn, .cn⟩, ⟨2768, .lo, .lo⟩, ⟨2769, .cn, .cn⟩, ⟨2784, .lo, .lo⟩, ⟨2786, .mn, .mn⟩,
    ⟨2788, .cn, .cn⟩, ⟨2790, .nd, .nd⟩, ⟨2800, .po, .po⟩, ⟨2801, .sc, .sc⟩, ⟨2802, .cn, .cn⟩,
    ⟨2809, .lo, .lo⟩, ⟨2810, .mn, .mn⟩, ⟨2816, .cn, .cn⟩, ⟨2817, .mn, .mn⟩, ⟨2818, .mc, .mc⟩,
    ⟨2820, .cn, .cn⟩, ⟨2821, .lo, .lo⟩, ⟨2829, .cn, .cn⟩, ⟨2831, .lo, .lo⟩, ⟨2833, .cn, .cn⟩,
    ⟨2835, .lo, .lo⟩, ⟨2857, .cn, .cn⟩, ⟨2858, .lo, .lo⟩, ⟨2865, .cn, .cn⟩, ⟨2866, .lo, .lo⟩,
    ⟨2868, .cn, .cn⟩, ⟨2869, .lo, .lo⟩, ⟨2874, .cn, .cn⟩, ⟨2876, .mn, .mn⟩, ⟨2877, .lo, .lo⟩,
    ⟨2878, .mc, .mn⟩, ⟨2882, .mn, .mn⟩, ⟨2885, .cn, .cn⟩, ⟨2887, .mc, .mc⟩, ⟨2889, .cn, .cn⟩,
    ⟨2891, .mc, .mc⟩, ⟨2893, .mn, .mn⟩, ⟨2894, .cn, .cn⟩, ⟨2901, .mn, .mn⟩, ⟨2903, .mc, .mc⟩,
    ⟨2904, .cn, .cn⟩, ⟨2908, .lo, .lo⟩, ⟨2910, .cn, .cn⟩, ⟨2911, .lo, .lo⟩, ⟨2914, .mn, .mn⟩,
    ⟨2916, .cn, .cn⟩, ⟨2918, .nd, .nd⟩, ⟨2928, .so, .so⟩, ⟨2929, .lo, .lo⟩, ⟨2930, .no, .no⟩,
    ⟨2936, .cn, .cn⟩, ⟨2946, .mn, .mn⟩, ⟨2947, .lo, .cn⟩, ⟨2950, .lo, .lo⟩, ⟨2955, .cn, .cn⟩,
    ⟨2958, .lo, .lo⟩, ⟨2961, .cn, .cn⟩, ⟨2962, .lo, .lo⟩, ⟨2966, .cn, .cn⟩, ⟨2969, .lo, .lo⟩,
    ⟨2971, .cn, .lo⟩, ⟨2975, .lo, .lo⟩, ⟨2976, .cn, .cn⟩, ⟨2979, .lo, .lo⟩, ⟨2981, .cn, .cn⟩,
    ⟨2984, .lo, .lo⟩, ⟨2987, .cn, .cn⟩, ⟨2990, .lo, .lo⟩, ⟨3002, .cn, .cn⟩, ⟨3006, .mc, .mc⟩,
    ⟨3008, .mn, .mn⟩, ⟨3009, .mc, .mc⟩, ⟨3011, .cn, .cn⟩, ⟨3014, .mc, .mc⟩, ⟨3017, .cn, .cn⟩,
    ⟨3018, .mc, .mc⟩, ⟨3021, .mn, .mn⟩, ⟨3022, .cn, .cn⟩, ⟨3024, .lo, .lo⟩, ⟨3025, .cn, .cn⟩,
    ⟨3031, .mc, .mc⟩, ⟨3032, .cn, .cn⟩, ⟨3046, .nd, .nd⟩, ⟨3056, .no, .no⟩, ⟨3059, .so, .so⟩,
    ⟨3065, .sc, .sc⟩, ⟨3066, .so, .so⟩, ⟨3067, .cn, .cn⟩, ⟨3072, .mn, .mn⟩, ⟨3073, .mc, .mc⟩,
    ⟨3076, .mn, .mn⟩, ⟨3077, .lo, .lo⟩, ⟨3085, .cn, .cn⟩, ⟨3086, .lo, .lo⟩, ⟨3089, .cn, .cn⟩,
    ⟨3090, .lo, .lo⟩, ⟨3113, .cn, .cn⟩, ⟨3114, .lo, .lo⟩, ⟨3130, .cn, .cn⟩, ⟨3132, .mn, .lo⟩,
    ⟨3135, .mn, .mn⟩, ⟨3137, .mc, .mc⟩, ⟨3141, .cn, .cn⟩, ⟨3142, .mn, .mn⟩, ⟨3145, .cn, .cn⟩,
    ⟨3146, .mn, .mn⟩, ⟨3150, .cn, .cn⟩, ⟨3157, .mn, .mn⟩, ⟨3159, .cn, .cn⟩, ⟨3160, .lo, .lo⟩,
    ⟨3163, .cn, .cn⟩, ⟨3165, .lo, .lo⟩, ⟨3166, .cn, .cn⟩, ⟨3168, .lo, .lo⟩, ⟨3170, .mn, .mn⟩,
    ⟨3172, .cn, .cn⟩, ⟨3174, .nd, .nd⟩, ⟨3184, .cn, .cn⟩, ⟨3191, .po, .po⟩, ⟨3192, .no, .no⟩,
    ⟨3199, .so, .so⟩, ⟨3200, .lo, .lo⟩, ⟨3201, .mn, .mn⟩, ⟨3202, .mc, .mc⟩, ⟨3204, .po, .po⟩,
    ⟨3205, .lo, .lo⟩, ⟨3213, .cn, .cn⟩, ⟨3214, .lo, .lo⟩, ⟨3217, .cn, .cn⟩, ⟨3218, .lo, .lo⟩,
    ⟨3241, .cn, .cn⟩, ⟨3242, .lo, .lo⟩, ⟨3252, .cn, .cn⟩, ⟨3253, .lo, .lo⟩, ⟨3258, .cn, .cn⟩,
    ⟨3260, .mn, .mn⟩, ⟨3261, .lo, .lo⟩, ⟨3262, .mc, .mn⟩, ⟨3265, .mc, .mc⟩, ⟨3269, .cn, .cn⟩,
    ⟨3270, .mn, .mn⟩, ⟨3271, .mc, .mc⟩, ⟨3273, .cn, .cn⟩, ⟨3274, .mc, .mc⟩, ⟨3276, .mn, .mn⟩,
    ⟨3278, .cn, .cn⟩, ⟨3285, .mc, .mc⟩, ⟨3287, .cn, .cn⟩, ⟨3293, .lo, .lo⟩, ⟨3295, .cn, .cn⟩,
    ⟨3296, .lo, .lo⟩, ⟨3298, .mn, .mn⟩, ⟨3300, .cn, .cn⟩, ⟨3302, .nd, .nd⟩, ⟨3312, .cn, .cn⟩,
    ⟨3313, .lo, .lo⟩, ⟨3315, .cn, .cn⟩, ⟨3328, .mn, .mn⟩, ⟨3330, .mc, .mc⟩, ⟨3332, .lo, .lo⟩,
    ⟨3341, .cn, .cn⟩, ⟨3342, .lo, .lo⟩, ⟨3345, .cn, .cn⟩, ⟨3346, .lo, .lo⟩, ⟨3387, .mn, .mn⟩,
    ⟨3389, .lo, .lo⟩, ⟨3390, .mc, .mc⟩, ⟨3393, .mn, .mn⟩, ⟨3397, .cn, .cn⟩, ⟨3398, .mc, .mc⟩,
    ⟨3401, .cn, .cn⟩, ⟨3402, .mc, .mc⟩, ⟨3405, .mn, .mn⟩, ⟨3406, .lo, .lo⟩, ⟨3407, .so, .so⟩,
    ⟨3408, .cn, .cn⟩, ⟨3412, .lo, .lo⟩, ⟨3415, .mc, .mc⟩, ⟨3416, .no, .no⟩, ⟨3423, .lo, .lo⟩,
    ⟨3426, .mn, .mn⟩, ⟨3428, .cn, .cn⟩, ⟨3430, .nd, .nd⟩, ⟨3440, .no, .no⟩, ⟨3449, .so, .so⟩,
    ⟨3450, .lo, .lo⟩, ⟨3456, .cn, .cn⟩, ⟨3457, .mn, .mn⟩, ⟨3458, .mc, .mc⟩, ⟨3460, .cn, .cn⟩,
    ⟨3461, .lo, .lo⟩, ⟨3479, .cn, .cn⟩, ⟨3482, .lo, .lo⟩, ⟨3506, .cn, .cn⟩, ⟨3507, .lo, .lo⟩,
    ⟨3516, .cn, .lo⟩, ⟨3519, .cn, .cn⟩, ⟨3520, .lo, .lo⟩, ⟨3527, .cn, .cn⟩, ⟨3530, .mn, .mn⟩,
    ⟨3531, .cn, .cn⟩, ⟨3535, .mc, .mc⟩, ⟨3538, .mn, .mn⟩, ⟨3541, .cn, .mn⟩, ⟨3544, .mc, .mc⟩,
    ⟨3552, .cn, .cn⟩, ⟨3558, .nd, .nd⟩, ⟨3568, .cn, .cn⟩, ⟨3570, .mc, .mc⟩, ⟨3572, .po, .po⟩,
    ⟨3573, .cn, .cn⟩, ⟨3585, .lo, .lo⟩, ⟨3633, .mn, .mn⟩, ⟨3634, .lo, .lo⟩, ⟨3636, .mn, .mn⟩,
    ⟨3643, .cn, .cn⟩, ⟨3647, .sc, .sc⟩, ⟨3648, .lo, .lo⟩, ⟨3654, .lm, .lm⟩, ⟨3655, .mn, .mn⟩,
    ⟨3663, .po, .po⟩, ⟨3664, .nd, .nd⟩, ⟨3674, .po, .po⟩, ⟨3676, .cn, .cn⟩, ⟨3713, .lo, .lo⟩,
    ⟨3715, .cn, .lo⟩, ⟨3719, .lo, .lo⟩, ⟨3723, .cn, .cn⟩, ⟨3724, .lo, .lo⟩, ⟨3748, .cn, .lo⟩,
    ⟨3752, .lo, .lo⟩, ⟨3761, .mn, .mn⟩, ⟨3762, .lo, .lo⟩, ⟨3764, .mn, .mn⟩, ⟨3773, .lo, .lo⟩,
    ⟨3774, .cn, .cn⟩, ⟨3776, .lo, .lo⟩, ⟨3781, .cn, .lm⟩, ⟨3784, .mn, .mn⟩, ⟨3790, .cn, .cn⟩,
    ⟨3792, .nd, .nd⟩, ⟨3802, .cn, .cn⟩, ⟨3804, .lo, .lo⟩, ⟨3808, .cn, .cn⟩, ⟨3840, .lo, .lo⟩,
    ⟨3841, .so, .so⟩, ⟨3844, .po, .po⟩, ⟨3859, .so, .po⟩, ⟨3862, .so, .so⟩, ⟨3864, .mn, .mn⟩,
    ⟨3866, .so, .so⟩, ⟨3872, .nd, .nd⟩, ⟨3882, .no, .no⟩, ⟨3892, .so, .mn⟩, ⟨3898, .ps, .pe⟩,
    ⟨3902, .mc, .mc⟩, ⟨3904, .lo, .lo⟩, ⟨3912, .cn, .cn⟩, ⟨3913, .lo, .lo⟩, ⟨3949, .cn, .cn⟩,
    ⟨3953, .mn, .mn⟩, ⟨3967, .mc, .mc⟩, ⟨3968, .mn, .mn⟩, ⟨3973, .po, .po⟩, ⟨3974, .mn, .mn⟩,
    ⟨3976, .lo, .lo⟩, ⟨3981, .mn, .mn⟩, ⟨3992, .cn, .cn⟩, ⟨3993, .mn, .mn⟩, ⟨4029, .cn, .cn⟩,
    ⟨4030, .so, .so⟩, ⟨4038, .mn, .mn⟩, ⟨4039, .so, .so⟩, ⟨4045, .cn, .cn⟩, ⟨4046, .so, .so⟩,
    ⟨4048, .po, .po⟩, ⟨4053, .so, .so⟩, ⟨4057, .po, .po⟩, ⟨4059, .cn, .cn⟩]

def categoryRunsBelow3000 : List CategoryRun :=
  [⟨4096, .lo, .lo⟩, ⟨4139, .mc, .mc⟩, ⟨4141, .mn, .mn⟩, ⟨4145, .mc, .mc⟩, ⟨4146, .mn, .mn⟩,
    ⟨4152, .mc, .mc⟩, ⟨4153, .mn, .mn⟩, ⟨4155, .mc, .mc⟩, ⟨4157, .mn, .mn⟩, ⟨4159, .lo, .lo⟩,
    ⟨4160, .nd, .nd⟩, ⟨4170, .po, .po⟩, ⟨4176, .lo, .lo⟩, ⟨4182, .mc, .mc⟩, ⟨4184, .mn, .mn⟩,
    ⟨4186, .lo, .lo⟩, ⟨4190, .mn, .mn⟩, ⟨4193, .lo, .lo⟩, ⟨4194, .mc, .mc⟩, ⟨4197, .lo, .lo⟩,
    ⟨4199, .mc, .mc⟩, ⟨4206, .lo, .lo⟩, ⟨4209, .mn, .mn⟩, ⟨4213, .lo, .lo⟩, ⟨4226, .mn, .mn⟩,
    ⟨4227, .mc, .mc⟩, ⟨4229, .mn, .mn⟩, ⟨4231, .mc, .mc⟩, ⟨4237, .mn, .mn⟩, ⟨4238, .lo, .lo⟩,
    ⟨4239, .mc, .mc⟩, ⟨4240, .nd, .nd⟩, ⟨4250, .mc, .mc⟩, ⟨4253, .mn, .mn⟩, ⟨4254, .so, .so⟩,
    ⟨4256, .lu, .lu⟩, ⟨4294, .cn, .lu⟩, ⟨4297, .cn, .cn⟩, ⟨4301, .lu, .lu⟩, ⟨4302, .cn, .cn⟩,
    ⟨4304, .ll, .ll⟩, ⟨4347, .po, .po⟩, ⟨4348, .lm, .lm⟩, ⟨4349, .ll, .ll⟩, ⟨4352, .lo, .lo⟩,
    ⟨4681, .cn, .cn⟩, ⟨4682, .lo, .lo⟩, ⟨4686, .cn, .cn⟩, ⟨4688, .lo, .lo⟩, ⟨4695, .cn, .lo⟩,
    ⟨4699, .lo, .lo⟩, ⟨4702, .cn, .cn⟩, ⟨4704, .lo, .lo⟩, ⟨4745, .cn, .cn⟩, ⟨4746, .lo, .lo⟩,
    ⟨4750, .cn, .cn⟩, ⟨4752, .lo, .lo⟩, ⟨4785, .cn, .cn⟩, ⟨4786, .lo, .lo⟩, ⟨4790, .cn, .cn⟩,
    ⟨4792, .lo, .lo⟩, ⟨4799, .cn, .lo⟩, ⟨4803, .lo, .lo⟩, ⟨4806, .cn, .cn⟩, ⟨4808, .lo, .lo⟩,
    ⟨4823, .cn, .cn⟩, ⟨4824, .lo, .lo⟩, ⟨4881, .cn, .cn⟩, ⟨4882, .lo, .lo⟩, ⟨4886, .cn, .cn⟩,
    ⟨4888, .lo, .lo⟩, ⟨4955, .cn, .cn⟩, ⟨4957, .mn, .mn⟩, ⟨4960, .po, .po⟩, ⟨4969, .no, .no⟩,
    ⟨4989, .cn, .cn⟩, ⟨4992, .lo, .lo⟩, ⟨5008, .so, .so⟩, ⟨5018, .cn, .cn⟩, ⟨5024, .lu, .lu⟩,
    ⟨5110, .cn, .cn⟩, ⟨5112, .ll, .ll⟩, ⟨5118, .cn, .cn⟩, ⟨5120, .pd, .pd⟩, ⟨5121, .lo, .lo⟩,
    ⟨5741, .so, .so⟩, ⟨5742, .po, .po⟩, ⟨5743, .lo, .lo⟩, ⟨5760, .zs, .zs⟩, ⟨5761, .lo, .lo⟩,
    ⟨5787, .ps, .ps⟩, ⟨5788, .pe, .pe⟩, ⟨5789, .cn, .cn⟩, ⟨5792, .lo, .lo⟩, ⟨5867, .po, .po⟩,
    ⟨5870, .nl, .nl⟩, ⟨5873, .lo, .lo⟩, ⟨5881, .cn, .cn⟩, ⟨5888, .lo, .lo⟩, ⟨5906, .mn, .mn⟩,
    ⟨5909, .mc, .mc⟩, ⟨5910, .cn, .cn⟩, ⟨5919, .lo, .lo⟩, ⟨5938, .mn, .mn⟩, ⟨5940, .mc, .mc⟩,
    ⟨5941, .po, .po⟩, ⟨5943, .cn, .cn⟩, ⟨5952, .lo, .lo⟩, ⟨5970, .mn, .mn⟩, ⟨5972, .cn, .cn⟩,
    ⟨5984, .lo, .lo⟩, ⟨5997, .cn, .cn⟩, ⟨5998, .lo, .lo⟩, ⟨6001, .cn, .cn⟩, ⟨6002, .mn, .mn⟩,
    ⟨6004, .cn, .cn⟩, ⟨6016, .lo, .lo⟩, ⟨6068, .mn, .mn⟩, ⟨6070, .mc, .mc⟩, ⟨6071, .mn, .mn⟩,
    ⟨6078, .mc, .mc⟩, ⟨6086, .mn, .mn⟩, ⟨6087, .mc, .mc⟩, ⟨6089, .mn, .mn⟩, ⟨6100, .po, .po⟩,
    ⟨6103, .lm, .lm⟩, ⟨6104, .po, .po⟩, ⟨6107, .sc, .sc⟩, ⟨6108, .lo, .lo⟩, ⟨6109, .mn, .mn⟩,
    ⟨6110, .cn, .cn⟩, ⟨6112, .nd, .nd⟩, ⟨6122, .cn, .cn⟩, ⟨6128, .no, .no⟩, ⟨6138, .cn, .cn⟩,
    ⟨6144, .po, .po⟩, ⟨6150, .pd, .pd⟩, ⟨6151, .po, .po⟩, ⟨6155, .mn, .mn⟩, ⟨6158, .cf, .cf⟩,
    ⟨6159, .mn, .mn⟩, ⟨6160, .nd, .nd⟩, ⟨6170, .cn, .cn⟩, ⟨6176, .lo, .lo⟩, ⟨6211, .lm, .lm⟩,
    ⟨6212, .lo, .lo⟩, ⟨6265, .cn, .cn⟩, ⟨6272, .lo, .lo⟩, ⟨6277, .mn, .mn⟩, ⟨6279, .lo, .lo⟩,
    ⟨6313, .mn, .mn⟩, ⟨6314, .lo, .lo⟩, ⟨6315, .cn, .cn⟩, ⟨6320, .lo, .lo⟩, ⟨6390, .cn, .cn⟩,
    ⟨6400, .lo, .lo⟩, ⟨6431, .cn, .cn⟩, ⟨6432, .mn, .mn⟩, ⟨6435, .mc, .mc⟩, ⟨6439, .mn, .mn⟩,
    ⟨6441, .mc, .mc⟩, ⟨6444, .cn, .cn⟩, ⟨6448, .mc, .mc⟩, ⟨6450, .mn, .mn⟩, ⟨6451, .mc, .mc⟩,
    ⟨6457, .mn, .mn⟩, ⟨6460, .cn, .cn⟩, ⟨6464, .so, .so⟩, ⟨6465, .cn, .cn⟩, ⟨6468, .po, .po⟩,
    ⟨6470, .nd, .nd⟩, ⟨6480, .lo, .lo⟩, ⟨6510, .cn, .cn⟩, ⟨6512, .lo, .lo⟩, ⟨6517, .cn, .cn⟩,
    ⟨6528, .lo, .lo⟩, ⟨6572, .cn, .cn⟩, ⟨6576, .lo, .lo⟩, ⟨6602, .cn, .cn⟩, ⟨6608, .nd, .nd⟩,
    ⟨6618, .no, .no⟩, ⟨6619, .cn, .cn⟩, ⟨6622, .so, .so⟩, ⟨6656, .lo, .lo⟩, ⟨6679, .mn, .mn⟩,
    ⟨6681, .mc, .mc⟩, ⟨6683, .mn, .mn⟩, ⟨6684, .cn, .cn⟩, ⟨6686, .po, .po⟩, ⟨6688, .lo, .lo⟩,
    ⟨6741, .mc, .mn⟩, ⟨6745, .mn, .mn⟩, ⟨6751, .cn, .cn⟩, ⟨6752, .mn, .mc⟩, ⟨6756, .mc, .mc⟩,
    ⟨6757, .mn, .mn⟩, ⟨6765, .mc, .mc⟩, ⟨6771, .mn, .mn⟩, ⟨6781, .cn, .cn⟩, ⟨6783, .mn, .mn⟩,
    ⟨6784, .nd, .nd⟩, ⟨6794, .cn, .cn⟩, ⟨6800, .nd, .nd⟩, ⟨6810, .cn, .cn⟩, ⟨6816, .po, .po⟩,
    ⟨6823, .lm, .lm⟩, ⟨6824, .po, .po⟩, ⟨6830, .cn, .cn⟩, ⟨6832, .mn, .mn⟩, ⟨6846, .me, .me⟩,
    ⟨6847, .mn, .mn⟩, ⟨6863, .cn, .cn⟩, ⟨6912, .mn, .mn⟩, ⟨6916, .mc, .mc⟩, ⟨6917, .lo, .lo⟩,
    ⟨6964, .mn, .mc⟩, ⟨6967, .mn, .mn⟩, ⟨6971, .mc, .mn⟩, ⟨6974, .mc, .mc⟩, ⟨6978, .mn, .mn⟩,
    ⟨6979, .mc, .mc⟩, ⟨6981, .lo, .lo⟩, ⟨6989, .cn, .cn⟩, ⟨6992, .nd, .nd⟩, ⟨7002, .po, .po⟩,
    ⟨7009, .so, .so⟩, ⟨7019, .mn, .mn⟩, ⟨7028, .so, .so⟩, ⟨7037, .po, .po⟩, ⟨7039, .cn, .cn⟩,
    ⟨7040, .mn, .mn⟩, ⟨7042, .mc, .mc⟩, ⟨7043, .lo, .lo⟩, ⟨7073, .mc, .mc⟩, ⟨7074, .mn, .mn⟩,
    ⟨7078, .mc, .mc⟩, ⟨7080, .mn, .mn⟩, ⟨7082, .mc, .mc⟩, ⟨7083, .mn, .mn⟩, ⟨7086, .lo, .lo⟩,
    ⟨7088, .nd, .nd⟩, ⟨7098, .lo, .lo⟩, ⟨7142, .mn, .mc⟩, ⟨7145, .mn, .mn⟩, ⟨7146, .mc, .mc⟩,
    ⟨7149, .mn, .mc⟩, ⟨7152, .mn, .mn⟩, ⟨7154, .mc, .mc⟩, ⟨7156, .cn, .cn⟩, ⟨7164, .po, .po⟩,
    ⟨7168, .lo, .lo⟩, ⟨7204, .mc, .mc⟩, ⟨7212, .mn, .mn⟩, ⟨7220, .mc, .mc⟩, ⟨7222, .mn, .mn⟩,
    ⟨7224, .cn, .cn⟩, ⟨7227, .po, .po⟩, ⟨7232, .nd, .nd⟩, ⟨7242, .cn, .cn⟩, ⟨7245, .lo, .lo⟩,
    ⟨7248, .nd, .nd⟩, ⟨7258, .lo, .lo⟩, ⟨7288, .lm, .lm⟩, ⟨7294, .po, .po⟩, ⟨7296, .ll, .ll⟩,
    ⟨7305, .cn, .cn⟩, ⟨7312, .lu, .lu⟩, ⟨7355, .cn, .cn⟩, ⟨7357, .lu, .lu⟩, ⟨7360, .po, .po⟩,
    ⟨7368, .cn, .cn⟩, ⟨7376, .mn, .mn⟩, ⟨7379, .po, .po⟩, ⟨7380, .mn, .mn⟩, ⟨7393, .mc, .mc⟩,
    ⟨7394, .mn, .mn⟩, ⟨7401, .lo, .lo⟩, ⟨7405, .mn, .mn⟩, ⟨7406, .lo, .lo⟩, ⟨7412, .mn, .mn⟩,
    ⟨7413, .lo, .lo⟩, ⟨7415, .mc, .mc⟩, ⟨7416, .mn, .mn⟩, ⟨7418, .lo, .lo⟩, ⟨7419, .cn, .cn⟩,
    ⟨7424, .ll, .ll⟩, ⟨7468, .lm, .lm⟩, ⟨7531, .ll, .ll⟩, ⟨7544, .lm, .lm⟩, ⟨7545, .ll, .ll⟩,
    ⟨7579, .lm, .lm⟩, ⟨7616, .mn, .mn⟩, ⟨7680, .lu, .ll⟩, ⟨7830, .ll, .ll⟩, ⟨7838, .lu, .ll⟩,
    ⟨7936, .ll, .ll⟩, ⟨7944, .lu, .lu⟩, ⟨7952, .ll, .ll⟩, ⟨7958, .cn, .cn⟩, ⟨7960, .lu, .lu⟩,
    ⟨7966, .cn, .cn⟩, ⟨7968, .ll, .ll⟩, ⟨7976, .lu, .lu⟩, ⟨7984, .ll, .ll⟩, ⟨7992, .lu, .lu⟩,
    ⟨8000, .ll, .ll⟩, ⟨8006, .cn, .cn⟩, ⟨8008, .lu, .lu⟩, ⟨8014, .cn, .cn⟩, ⟨8016, .ll, .ll⟩,
    ⟨8024, .cn, .lu⟩, ⟨8032, .ll, .ll⟩, ⟨8040, .lu, .lu⟩, ⟨8048, .ll, .ll⟩, ⟨8062, .cn, .cn⟩,
    ⟨8064, .ll, .ll⟩, ⟨8072, .lt, .lt⟩, ⟨8080, .ll, .ll⟩, ⟨8088, .lt, .lt⟩, ⟨8096, .ll, .ll⟩,
    ⟨8104, .lt, .lt⟩, ⟨8112, .ll, .ll⟩, ⟨8117, .cn, .cn⟩, ⟨8118, .ll, .ll⟩, ⟨8120, .lu, .lu⟩,
    ⟨8124, .lt, .lt⟩, ⟨8125, .sk, .ll⟩, ⟨8128, .sk, .sk⟩, ⟨8130, .ll, .ll⟩, ⟨8133, .cn, .cn⟩,
    ⟨8134, .ll, .ll⟩, ⟨8136, .lu, .lu⟩, ⟨8140, .lt, .lt⟩, ⟨8141, .sk, .sk⟩, ⟨8144, .ll, .ll⟩,
    ⟨8148, .cn, .cn⟩, ⟨8150, .ll, .ll⟩, ⟨8152, .lu, .lu⟩, ⟨8156, .cn, .cn⟩, ⟨8157, .sk, .sk⟩,
    ⟨8160, .ll, .ll⟩, ⟨8168, .lu, .lu⟩, ⟨8173, .sk, .sk⟩, ⟨8176, .cn, .cn⟩, ⟨8178, .ll, .ll⟩,
    ⟨8181, .cn, .cn⟩, ⟨8182, .ll, .ll⟩, ⟨8184, .lu, .lu⟩, ⟨8188, .lt, .lt⟩, ⟨8189, .sk, .sk⟩,
    ⟨8191, .cn, .cn⟩, ⟨8192, .zs, .zs⟩, ⟨8203, .cf, .cf⟩, ⟨8208, .pd, .pd⟩, ⟨8214, .po, .po⟩,
    ⟨8216, .pi, .pi⟩, ⟨8217, .pf, .pf⟩, ⟨8218, .ps, .ps⟩, ⟨8219, .pi, .pi⟩, ⟨8221, .pf, .pf⟩,
    ⟨8222, .ps, .ps⟩, ⟨8223, .pi, .pi⟩, ⟨8224, .po, .po⟩, ⟨8232, .zl, .zl⟩, ⟨8233, .zp, .zp⟩,
    ⟨8234, .cf, .cf⟩, ⟨8239, .zs, .zs⟩, ⟨8240, .po, .po⟩, ⟨8249, .pi, .pi⟩, ⟨8250, .pf, .pf⟩,
    ⟨8251, .po, .po⟩, ⟨8255, .pc, .pc⟩, ⟨8257, .po, .po⟩, ⟨8260, .sm, .sm⟩, ⟨8261, .ps, .ps⟩,
    ⟨8262, .pe, .pe⟩, ⟨8263, .po, .po⟩, ⟨8274, .sm, .sm⟩, ⟨8275, .po, .pc⟩, ⟨8278, .po, .po⟩,
    ⟨8287, .zs, .zs⟩, ⟨8288, .cf, .cf⟩, ⟨8293, .cn, .cn⟩, ⟨8294, .cf, .cf⟩, ⟨8304, .no, .no⟩,
    ⟨8305, .lm, .lm⟩, ⟨8306, .cn, .cn⟩, ⟨8308, .no, .no⟩, ⟨8314, .sm, .sm⟩, ⟨8317, .ps, .ps⟩,
    ⟨8318, .pe, .pe⟩, ⟨8319, .lm, .lm⟩, ⟨8320, .no, .no⟩, ⟨8330, .sm, .sm⟩, ⟨8333, .ps, .ps⟩,
    ⟨8334, .pe, .pe⟩, ⟨8335, .cn, .cn⟩, ⟨8336, .lm, .lm⟩, ⟨8349, .cn, .cn⟩, ⟨8352, .sc, .sc⟩,
    ⟨8385, .cn, .cn⟩, ⟨8400, .mn, .mn⟩, ⟨8413, .me, .me⟩, ⟨8417, .mn, .mn⟩, ⟨8418, .me, .me⟩,
    ⟨8421, .mn, .mn⟩, ⟨8433, .cn, .cn⟩, ⟨8448, .so, .so⟩, ⟨8450, .lu, .lu⟩, ⟨8451, .so, .so⟩,
    ⟨8455, .lu, .lu⟩, ⟨8456, .so, .so⟩, ⟨8458, .ll, .ll⟩, ⟨8459, .lu, .lu⟩, ⟨8462, .ll, .ll⟩,
    ⟨8464, .lu, .lu⟩, ⟨8467, .ll, .ll⟩, ⟨8468, .so, .lu⟩, ⟨8471, .so, .so⟩, ⟨8472, .sm, .sm⟩,
    ⟨8473, .lu, .lu⟩, ⟨8478, .so, .so⟩, ⟨8484, .lu, .so⟩, ⟨8491, .lu, .lu⟩, ⟨8494, .so, .so⟩,
    ⟨8495, .ll, .ll⟩, ⟨8496, .lu, .lu⟩, ⟨8500, .ll, .ll⟩, ⟨8501, .lo, .lo⟩, ⟨8505, .ll, .ll⟩,
    ⟨8506, .so, .so⟩, ⟨8508, .ll, .ll⟩, ⟨8510, .lu, .lu⟩, ⟨8512, .sm, .sm⟩, ⟨8517, .lu, .lu⟩,
    ⟨8518, .ll, .ll⟩, ⟨8522, .so, .sm⟩, ⟨8525, .so, .ll⟩, ⟨8528, .no, .no⟩, ⟨8544, .nl, .nl⟩,
    ⟨8579, .lu, .lu⟩, ⟨8580, .ll, .ll⟩, ⟨8581, .nl, .nl⟩, ⟨8585, .no, .no⟩, ⟨8586, .so, .so⟩,
    ⟨8588, .cn, .cn⟩, ⟨8592, .sm, .sm⟩, ⟨8597, .so, .so⟩, ⟨8602, .sm, .sm⟩, ⟨8604, .so, .so⟩,
    ⟨8608, .sm, .sm⟩, ⟨8609, .so, .so⟩, ⟨8611, .sm, .sm⟩, ⟨8612, .so, .so⟩, ⟨8614, .sm, .sm⟩,
    ⟨8615, .so, .so⟩, ⟨8622, .sm, .sm⟩, ⟨8623, .so, .so⟩, ⟨8654, .sm, .sm⟩, ⟨8656, .so, .so⟩,
    ⟨8658, .sm, .so⟩, ⟨8662, .so, .so⟩, ⟨8692, .sm, .sm⟩, ⟨8960, .so, .so⟩, ⟨8968, .ps, .pe⟩,
    ⟨8972, .so, .so⟩, ⟨8992, .sm, .sm⟩, ⟨8994, .so, .so⟩, ⟨9001, .ps, .ps⟩, ⟨9002, .pe, .pe⟩,
    ⟨9003, .so, .so⟩, ⟨9084, .sm, .sm⟩, ⟨9085, .so, .so⟩, ⟨9115, .sm, .sm⟩, ⟨9140, .so, .so⟩,
    ⟨9180, .sm, .sm⟩, ⟨9186, .so, .so⟩, ⟨9255, .cn, .cn⟩, ⟨9280, .so, .so⟩, ⟨9291, .cn, .cn⟩,
    ⟨9312, .no, .no⟩, ⟨9372, .so, .so⟩, ⟨9450, .no, .no⟩, ⟨9472, .so, .so⟩, ⟨9655, .sm, .sm⟩,
    ⟨9656, .so, .so⟩, ⟨9665, .sm, .sm⟩, ⟨9666, .so, .so⟩, ⟨9720, .sm, .sm⟩, ⟨9728, .so, .so⟩,
    ⟨9839, .sm, .sm⟩, ⟨9840, .so, .so⟩, ⟨10088, .ps, .pe⟩, ⟨10102, .no, .no⟩, ⟨10132, .so, .so⟩,
    ⟨10176, .sm, .sm⟩, ⟨10181, .ps, .ps⟩, ⟨10182, .pe, .pe⟩, ⟨10183, .sm, .sm⟩, ⟨10214, .ps, .pe⟩,
    ⟨10224, .sm, .sm⟩, ⟨10240, .so, .so⟩, ⟨10496, .sm, .sm⟩, ⟨10627, .ps, .pe⟩, ⟨10649, .sm, .sm⟩,
    ⟨10712, .ps, .pe⟩, ⟨10716, .sm, .sm⟩, ⟨10748, .ps, .ps⟩, ⟨10749, .pe, .pe⟩, ⟨10750, .sm, .sm⟩,
    ⟨11008, .so, .so⟩, ⟨11056, .sm, .sm⟩, ⟨11077, .so, .so⟩, ⟨11079, .sm, .sm⟩, ⟨11085, .so, .so⟩,
    ⟨11124, .cn, .cn⟩, ⟨11126, .so, .so⟩, ⟨11158, .cn, .cn⟩, ⟨11159, .so, .so⟩, ⟨11264, .lu, .lu⟩,
    ⟨11312, .ll, .ll⟩, ⟨11360, .lu, .ll⟩, ⟨11363, .lu, .lu⟩, ⟨11365, .ll, .ll⟩, ⟨11367, .lu, .ll⟩,
    ⟨11374, .lu, .lu⟩, ⟨11377, .ll, .lu⟩, ⟨11380, .ll, .lu⟩, ⟨11383, .ll, .ll⟩, ⟨11388, .lm, .lm⟩,
    ⟨11390, .lu, .lu⟩, ⟨11393, .ll, .lu⟩, ⟨11492, .ll, .ll⟩, ⟨11493, .so, .so⟩, ⟨11499, .lu, .ll⟩,
    ⟨11503, .mn, .mn⟩, ⟨11506, .lu, .lu⟩, ⟨11507, .ll, .ll⟩, ⟨11508, .cn, .cn⟩, ⟨11513, .po, .po⟩,
    ⟨11517, .no, .no⟩, ⟨11518, .po, .po⟩, ⟨11520, .ll, .ll⟩, ⟨11558, .cn, .ll⟩, ⟨11561, .cn, .cn⟩,
    ⟨11565, .ll, .ll⟩, ⟨11566, .cn, .cn⟩, ⟨11568, .lo, .lo⟩, ⟨11624, .cn, .cn⟩, ⟨11631, .lm, .lm⟩,
    ⟨11632, .po, .po⟩, ⟨11633, .cn, .cn⟩, ⟨11647, .mn, .mn⟩, ⟨11648, .lo, .lo⟩, ⟨11671, .cn, .cn⟩,
    ⟨11680, .lo, .lo⟩, ⟨11687, .cn, .cn⟩, ⟨11688, .lo, .lo⟩, ⟨11695, .cn, .cn⟩, ⟨11696, .lo, .lo⟩,
    ⟨11703, .cn, .cn⟩, ⟨11704, .lo, .lo⟩, ⟨11711, .cn, .cn⟩, ⟨11712, .lo, .lo⟩, ⟨11719, .cn, .cn⟩,
    ⟨11720, .lo, .lo⟩, ⟨11727, .cn, .cn⟩, ⟨11728, .lo, .lo⟩, ⟨11735, .cn, .cn⟩, ⟨11736, .lo, .lo⟩,
    ⟨11743, .cn, .cn⟩, ⟨11744, .mn, .mn⟩, ⟨11776, .po, .po⟩, ⟨11778, .pi, .pf⟩, ⟨11782, .po, .po⟩,
    ⟨11785, .pi, .pi⟩, ⟨11786, .pf, .pf⟩, ⟨11787, .po, .po⟩, ⟨11788, .pi, .pi⟩, ⟨11789, .pf, .pf⟩,
    ⟨11790, .po, .po⟩, ⟨11799, .pd, .pd⟩, ⟨11800, .po, .po⟩, ⟨11802, .pd, .pd⟩, ⟨11803, .po, .po⟩,
    ⟨11804, .pi, .pi⟩, ⟨11805, .pf, .pf⟩, ⟨11806, .po, .po⟩, ⟨11808, .pi, .pi⟩, ⟨11809, .pf, .pf⟩,
    ⟨11810, .ps, .pe⟩, ⟨11818, .po, .po⟩, ⟨11823, .lm, .lm⟩, ⟨11824, .po, .po⟩, ⟨11834, .pd, .pd⟩,
    ⟨11836, .po, .po⟩, ⟨11840, .pd, .pd⟩, ⟨11841, .po, .ps⟩, ⟨11844, .po, .po⟩, ⟨11856, .so, .so⟩,
    ⟨11858, .po, .po⟩, ⟨11861, .ps, .pe⟩, ⟨11869, .pd, .pd⟩, ⟨11870, .cn, .cn⟩, ⟨11904, .so, .so⟩,
    ⟨11930, .cn, .cn⟩, ⟨11931, .so, .so⟩, ⟨12020, .cn, .cn⟩, ⟨12032, .so, .so⟩, ⟨12246, .cn, .cn⟩,
    ⟨12272, .so, .so⟩, ⟨12284, .cn, .cn⟩]

def categoryRunsBelow11000 : List CategoryRun :=
  [⟨12288, .zs, .zs⟩, ⟨12289, .po, .po⟩, ⟨12292, .so, .so⟩, ⟨12293, .lm, .lm⟩, ⟨12294, .lo, .lo⟩,
    ⟨12295, .nl, .nl⟩, ⟨12296, .ps, .pe⟩, ⟨12306, .so, .so⟩, ⟨12308, .ps, .pe⟩, ⟨12316, .pd, .pd⟩,
    ⟨12317, .ps, .ps⟩, ⟨12318, .pe, .pe⟩, ⟨12320, .so, .so⟩, ⟨12321, .nl, .nl⟩, ⟨12330, .mn, .mn⟩,
    ⟨12334, .mc, .mc⟩, ⟨12336, .pd, .pd⟩, ⟨12337, .lm, .lm⟩, ⟨12342, .so, .so⟩, ⟨12344, .nl, .nl⟩,
    ⟨12347, .lm, .lm⟩, ⟨12348, .lo, .lo⟩, ⟨12349, .po, .po⟩, ⟨12350, .so, .so⟩, ⟨12352, .cn, .cn⟩,
    ⟨12353, .lo, .lo⟩, ⟨12439, .cn, .cn⟩, ⟨12441, .mn, .mn⟩, ⟨12443, .sk, .sk⟩, ⟨12445, .lm, .lm⟩,
    ⟨12447, .lo, .pd⟩, ⟨12450, .lo, .lo⟩, ⟨12539, .po, .po⟩, ⟨12540, .lm, .lm⟩, ⟨12543, .lo, .lo⟩,
    ⟨12544, .cn, .cn⟩, ⟨12549, .lo, .lo⟩, ⟨12592, .cn, .cn⟩, ⟨12593, .lo, .lo⟩, ⟨12687, .cn, .cn⟩,
    ⟨12688, .so, .so⟩, ⟨12690, .no, .no⟩, ⟨12694, .so, .so⟩, ⟨12704, .lo, .lo⟩, ⟨12736, .so, .so⟩,
    ⟨12772, .cn, .cn⟩, ⟨12784, .lo, .lo⟩, ⟨12800, .so, .so⟩, ⟨12831, .cn, .cn⟩, ⟨12832, .no, .no⟩,
    ⟨12842, .so, .so⟩, ⟨12872, .no, .no⟩, ⟨12880, .so, .so⟩, ⟨12881, .no, .no⟩, ⟨12896, .so, .so⟩,
    ⟨12928, .no, .no⟩, ⟨12938, .so, .so⟩, ⟨12977, .no, .no⟩, ⟨12992, .so, .so⟩, ⟨13312, .lo, .lo⟩,
    ⟨19904, .so, .so⟩, ⟨19968, .lo, .lo⟩, ⟨40981, .lm, .lm⟩, ⟨40982, .lo, .lo⟩, ⟨42125, .cn, .cn⟩,
    ⟨42128, .so, .so⟩, ⟨42183, .cn, .cn⟩, ⟨42192, .lo, .lo⟩, ⟨42232, .lm, .lm⟩, ⟨42238, .po, .po⟩,
    ⟨42240, .lo, .lo⟩, ⟨42508, .lm, .lm⟩, ⟨42509, .po, .po⟩, ⟨42512, .lo, .lo⟩, ⟨42528, .nd, .nd⟩,
    ⟨42538, .lo, .lo⟩, ⟨42540, .cn, .cn⟩, ⟨42560, .lu, .ll⟩, ⟨42606, .lo, .lo⟩, ⟨42607, .mn, .mn⟩,
    ⟨42608, .me, .me⟩, ⟨42611, .po, .po⟩, ⟨42612, .mn, .mn⟩, ⟨42622, .po, .po⟩, ⟨42623, .lm, .lm⟩,
    ⟨42624, .lu, .ll⟩, ⟨42652, .lm, .lm⟩, ⟨42654, .mn, .mn⟩, ⟨42656, .lo, .lo⟩, ⟨42726, .nl, .nl⟩,
    ⟨42736, .mn, .mn⟩, ⟨42738, .po, .po⟩, ⟨42744, .cn, .cn⟩, ⟨42752, .sk, .sk⟩, ⟨42775, .lm, .lm⟩,
    ⟨42784, .sk, .sk⟩, ⟨42786, .lu, .ll⟩, ⟨42800, .ll, .ll⟩, ⟨42802, .lu, .ll⟩, ⟨42864, .lm, .lm⟩,
    ⟨42865, .ll, .ll⟩, ⟨42873, .lu, .ll⟩, ⟨42878, .lu, .ll⟩, ⟨42888, .lm, .lm⟩, ⟨42889, .sk, .sk⟩,
    ⟨42891, .lu, .ll⟩, ⟨42895, .lo, .lo⟩, ⟨42896, .lu, .ll⟩, ⟨42900, .ll, .ll⟩, ⟨42902, .lu, .ll⟩,
    ⟨42923, .lu, .lu⟩, ⟨42927, .ll, .ll⟩, ⟨42928, .lu, .lu⟩, ⟨42933, .ll, .lu⟩, ⟨42949, .lu, .lu⟩,
    ⟨42952, .ll, .lu⟩, ⟨42955, .cn, .cn⟩, ⟨42960, .lu, .lu⟩, ⟨42961, .ll, .cn⟩, ⟨42966, .lu, .ll⟩,
    ⟨42970, .cn, .cn⟩, ⟨42994, .lm, .lm⟩, ⟨42997, .lu, .lu⟩, ⟨42998, .ll, .ll⟩, ⟨42999, .lo, .lo⟩,
    ⟨43000, .lm, .lm⟩, ⟨43002, .ll, .ll⟩, ⟨43003, .lo, .lo⟩, ⟨43010, .mn, .mn⟩, ⟨43011, .lo, .lo⟩,
    ⟨43014, .mn, .mn⟩, ⟨43015, .lo, .lo⟩, ⟨43019, .mn, .mn⟩, ⟨43020, .lo, .lo⟩, ⟨43043, .mc, .mc⟩,
    ⟨43045, .mn, .mn⟩, ⟨43047, .mc, .mc⟩, ⟨43048, .so, .so⟩, ⟨43052, .mn, .mn⟩, ⟨43053, .cn, .cn⟩,
    ⟨43056, .no, .no⟩, ⟨43062, .so, .so⟩, ⟨43064, .sc, .sc⟩, ⟨43065, .so, .so⟩, ⟨43066, .cn, .cn⟩,
    ⟨43072, .lo, .lo⟩, ⟨43124, .po, .po⟩, ⟨43128, .cn, .cn⟩, ⟨43136, .mc, .mc⟩, ⟨43138, .lo, .lo⟩,
    ⟨43188, .mc, .mc⟩, ⟨43204, .mn, .mn⟩, ⟨43206, .cn, .cn⟩, ⟨43214, .po, .po⟩, ⟨43216, .nd, .nd⟩,
    ⟨43226, .cn, .cn⟩, ⟨43232, .mn, .mn⟩, ⟨43250, .lo, .lo⟩, ⟨43256, .po, .po⟩, ⟨43259, .lo, .po⟩,
    ⟨43262, .lo, .lo⟩, ⟨43263, .mn, .mn⟩, ⟨43264, .nd, .nd⟩, ⟨43274, .lo, .lo⟩, ⟨43302, .mn, .mn⟩,
    ⟨43310, .po, .po⟩, ⟨43312, .lo, .lo⟩, ⟨43335, .mn, .mn⟩, ⟨43346, .mc, .mc⟩, ⟨43348, .cn, .cn⟩,
    ⟨43359, .po, .po⟩, ⟨43360, .lo, .lo⟩, ⟨43389, .cn, .cn⟩, ⟨43392, .mn, .mn⟩, ⟨43395, .mc, .mc⟩,
    ⟨43396, .lo, .lo⟩, ⟨43443, .mn, .mn⟩, ⟨43444, .mc, .mc⟩, ⟨43446, .mn, .mn⟩, ⟨43450, .mc, .mc⟩,
    ⟨43452, .mn, .mn⟩, ⟨43454, .mc, .mc⟩, ⟨43457, .po, .po⟩, ⟨43470, .cn, .cn⟩, ⟨43471, .lm, .lm⟩,
    ⟨43472, .nd, .nd⟩, ⟨43482, .cn, .cn⟩, ⟨43486, .po, .po⟩, ⟨43488, .lo, .lo⟩, ⟨43493, .mn, .mn⟩,
    ⟨43494, .lm, .lm⟩, ⟨43495, .lo, .lo⟩, ⟨43504, .nd, .nd⟩, ⟨43514, .lo, .lo⟩, ⟨43519, .cn, .cn⟩,
    ⟨43520, .lo, .lo⟩, ⟨43561, .mn, .mn⟩, ⟨43567, .mc, .mc⟩, ⟨43569, .mn, .mn⟩, ⟨43571, .mc, .mc⟩,
    ⟨43573, .mn, .mn⟩, ⟨43575, .cn, .cn⟩, ⟨43584, .lo, .lo⟩, ⟨43587, .mn, .mn⟩, ⟨43588, .lo, .lo⟩,
    ⟨43596, .mn, .mn⟩, ⟨43597, .mc, .mc⟩, ⟨43598, .cn, .cn⟩, ⟨43600, .nd, .nd⟩, ⟨43610, .cn, .cn⟩,
    ⟨43612, .po, .po⟩, ⟨43616, .lo, .lo⟩, ⟨43632, .lm, .lm⟩, ⟨43633, .lo, .lo⟩, ⟨43639, .so, .so⟩,
    ⟨43642, .lo, .lo⟩, ⟨43643, .mc, .mn⟩, ⟨43646, .lo, .lo⟩, ⟨43696, .mn, .lo⟩, ⟨43699, .mn, .mn⟩,
    ⟨43701, .lo, .lo⟩, ⟨43703, .mn, .mn⟩, ⟨43705, .lo, .lo⟩, ⟨43710, .mn, .mn⟩, ⟨43712, .lo, .mn⟩,
    ⟨43715, .cn, .cn⟩, ⟨43739, .lo, .lo⟩, ⟨43741, .lm, .lm⟩, ⟨43742, .po, .po⟩, ⟨43744, .lo, .lo⟩,
    ⟨43755, .mc, .mc⟩, ⟨43756, .mn, .mn⟩, ⟨43758, .mc, .mc⟩, ⟨43760, .po, .po⟩, ⟨43762, .lo, .lo⟩,
    ⟨43763, .lm, .lm⟩, ⟨43765, .mc, .mc⟩, ⟨43766, .mn, .mn⟩, ⟨43767, .cn, .cn⟩, ⟨43777, .lo, .lo⟩,
    ⟨43783, .cn, .cn⟩, ⟨43785, .lo, .lo⟩, ⟨43791, .cn, .cn⟩, ⟨43793, .lo, .lo⟩, ⟨43799, .cn, .cn⟩,
    ⟨43808, .lo, .lo⟩, ⟨43815, .cn, .cn⟩, ⟨43816, .lo, .lo⟩, ⟨43823, .cn, .cn⟩, ⟨43824, .ll, .ll⟩,
    ⟨43867, .sk, .sk⟩, ⟨43868, .lm, .lm⟩, ⟨43872, .ll, .ll⟩, ⟨43881, .lm, .lm⟩, ⟨43882, .sk, .sk⟩,
    ⟨43884, .cn, .cn⟩, ⟨43888, .ll, .ll⟩, ⟨43968, .lo, .lo⟩, ⟨44003, .mc, .mc⟩, ⟨44005, .mn, .mn⟩,
    ⟨44006, .mc, .mc⟩, ⟨44008, .mn, .mn⟩, ⟨44009, .mc, .mc⟩, ⟨44011, .po, .po⟩, ⟨44012, .mc, .mc⟩,
    ⟨44013, .mn, .mn⟩, ⟨44014, .cn, .cn⟩, ⟨44016, .nd, .nd⟩, ⟨44026, .cn, .cn⟩, ⟨44032, .lo, .lo⟩,
    ⟨55204, .cn, .cn⟩, ⟨55216, .lo, .lo⟩, ⟨55239, .cn, .cn⟩, ⟨55243, .lo, .lo⟩, ⟨55292, .cn, .cn⟩,
    ⟨55296, .cs, .cs⟩, ⟨57344, .co, .co⟩, ⟨63744, .lo, .lo⟩, ⟨64110, .cn, .cn⟩, ⟨64112, .lo, .lo⟩,
    ⟨64218, .cn, .cn⟩, ⟨64256, .ll, .ll⟩, ⟨64263, .cn, .cn⟩, ⟨64275, .ll, .ll⟩, ⟨64280, .cn, .cn⟩,
    ⟨64285, .lo, .mn⟩, ⟨64288, .lo, .lo⟩, ⟨64297, .sm, .sm⟩, ⟨64298, .lo, .lo⟩, ⟨64311, .cn, .cn⟩,
    ⟨64312, .lo, .lo⟩, ⟨64317, .cn, .lo⟩, ⟨64321, .lo, .cn⟩, ⟨64324, .lo, .cn⟩, ⟨64327, .lo, .lo⟩,
    ⟨64434, .sk, .sk⟩, ⟨64451, .cn, .cn⟩, ⟨64467, .lo, .lo⟩, ⟨64830, .pe, .pe⟩, ⟨64831, .ps, .ps⟩,
    ⟨64832, .so, .so⟩, ⟨64848, .lo, .lo⟩, ⟨64912, .cn, .cn⟩, ⟨64914, .lo, .lo⟩, ⟨64968, .cn, .cn⟩,
    ⟨64975, .so, .so⟩, ⟨64976, .cn, .cn⟩, ⟨65008, .lo, .lo⟩, ⟨65020, .sc, .sc⟩, ⟨65021, .so, .so⟩,
    ⟨65024, .mn, .mn⟩, ⟨65040, .po, .po⟩, ⟨65047, .ps, .ps⟩, ⟨65048, .pe, .pe⟩, ⟨65049, .po, .po⟩,
    ⟨65050, .cn, .cn⟩, ⟨65056, .mn, .mn⟩, ⟨65072, .po, .po⟩, ⟨65073, .pd, .pd⟩, ⟨65075, .pc, .pc⟩,
    ⟨65077, .ps, .pe⟩, ⟨65093, .po, .po⟩, ⟨65095, .ps, .ps⟩, ⟨65096, .pe, .pe⟩, ⟨65097, .po, .po⟩,
    ⟨65101, .pc, .pc⟩, ⟨65104, .po, .po⟩, ⟨65107, .cn, .cn⟩, ⟨65108, .po, .po⟩, ⟨65112, .pd, .pd⟩,
    ⟨65113, .ps, .pe⟩, ⟨65119, .po, .po⟩, ⟨65122, .sm, .pd⟩, ⟨65125, .sm, .sm⟩, ⟨65127, .cn, .cn⟩,
    ⟨65128, .po, .sc⟩, ⟨65131, .po, .po⟩, ⟨65132, .cn, .cn⟩, ⟨65136, .lo, .lo⟩, ⟨65141, .cn, .cn⟩,
    ⟨65142, .lo, .lo⟩, ⟨65277, .cn, .cn⟩, ⟨65279, .cf, .cf⟩, ⟨65280, .cn, .cn⟩, ⟨65281, .po, .po⟩,
    ⟨65284, .sc, .sc⟩, ⟨65285, .po, .po⟩, ⟨65288, .ps, .ps⟩, ⟨65289, .pe, .pe⟩, ⟨65290, .po, .sm⟩,
    ⟨65293, .pd, .pd⟩, ⟨65294, .po, .po⟩, ⟨65296, .nd, .nd⟩, ⟨65306, .po, .po⟩, ⟨65308, .sm, .sm⟩,
    ⟨65311, .po, .po⟩, ⟨65313, .lu, .lu⟩, ⟨65339, .ps, .ps⟩, ⟨65340, .po, .po⟩, ⟨65341, .pe, .pe⟩,
    ⟨65342, .sk, .pc⟩, ⟨65345, .ll, .ll⟩, ⟨65371, .ps, .ps⟩, ⟨65372, .sm, .pe⟩, ⟨65375, .ps, .ps⟩,
    ⟨65376, .pe, .pe⟩, ⟨65377, .po, .po⟩, ⟨65378, .ps, .ps⟩, ⟨65379, .pe, .pe⟩, ⟨65380, .po, .po⟩,
    ⟨65382, .lo, .lo⟩, ⟨65392, .lm, .lm⟩, ⟨65393, .lo, .lo⟩, ⟨65438, .lm, .lm⟩, ⟨65440, .lo, .lo⟩,
    ⟨65471, .cn, .cn⟩, ⟨65474, .lo, .lo⟩, ⟨65480, .cn, .cn⟩, ⟨65482, .lo, .lo⟩, ⟨65488, .cn, .cn⟩,
    ⟨65490, .lo, .lo⟩, ⟨65496, .cn, .cn⟩, ⟨65498, .lo, .lo⟩, ⟨65501, .cn, .cn⟩, ⟨65504, .sc, .sc⟩,
    ⟨65506, .sm, .sm⟩, ⟨65507, .sk, .sk⟩, ⟨65508, .so, .so⟩, ⟨65509, .sc, .sc⟩, ⟨65511, .cn, .cn⟩,
    ⟨65512, .so, .so⟩, ⟨65513, .sm, .sm⟩, ⟨65517, .so, .so⟩, ⟨65519, .cn, .cn⟩, ⟨65529, .cf, .cf⟩,
    ⟨65532, .so, .so⟩, ⟨65534, .cn, .cn⟩, ⟨65536, .lo, .lo⟩, ⟨65548, .cn, .cn⟩, ⟨65549, .lo, .lo⟩,
    ⟨65575, .cn, .cn⟩, ⟨65576, .lo, .lo⟩, ⟨65595, .cn, .cn⟩, ⟨65596, .lo, .lo⟩, ⟨65598, .cn, .cn⟩,
    ⟨65599, .lo, .lo⟩, ⟨65614, .cn, .cn⟩, ⟨65616, .lo, .lo⟩, ⟨65630, .cn, .cn⟩, ⟨65664, .lo, .lo⟩,
    ⟨65787, .cn, .cn⟩, ⟨65792, .po, .po⟩, ⟨65795, .cn, .cn⟩, ⟨65799, .no, .no⟩, ⟨65844, .cn, .cn⟩,
    ⟨65847, .so, .so⟩, ⟨65856, .nl, .nl⟩, ⟨65909, .no, .no⟩, ⟨65913, .so, .so⟩, ⟨65930, .no, .no⟩,
    ⟨65932, .so, .so⟩, ⟨65935, .cn, .cn⟩, ⟨65936, .so, .so⟩, ⟨65949, .cn, .cn⟩, ⟨65952, .so, .so⟩,
    ⟨65953, .cn, .cn⟩, ⟨66000, .so, .so⟩, ⟨66045, .mn, .mn⟩, ⟨66046, .cn, .cn⟩, ⟨66176, .lo, .lo⟩,
    ⟨66205, .cn, .cn⟩, ⟨66208, .lo, .lo⟩, ⟨66257, .cn, .cn⟩, ⟨66272, .mn, .mn⟩, ⟨66273, .no, .no⟩,
    ⟨66300, .cn, .cn⟩, ⟨66304, .lo, .lo⟩, ⟨66336, .no, .no⟩, ⟨66340, .cn, .cn⟩, ⟨66349, .lo, .lo⟩,
    ⟨66369, .nl, .nl⟩, ⟨66370, .lo, .lo⟩, ⟨66378, .nl, .nl⟩, ⟨66379, .cn, .cn⟩, ⟨66384, .lo, .lo⟩,
    ⟨66422, .mn, .mn⟩, ⟨66427, .cn, .cn⟩, ⟨66432, .lo, .lo⟩, ⟨66462, .cn, .cn⟩, ⟨66463, .po, .po⟩,
    ⟨66464, .lo, .lo⟩, ⟨66500, .cn, .cn⟩, ⟨66504, .lo, .lo⟩, ⟨66512, .po, .po⟩, ⟨66513, .nl, .nl⟩,
    ⟨66518, .cn, .cn⟩, ⟨66560, .lu, .lu⟩, ⟨66600, .ll, .ll⟩, ⟨66640, .lo, .lo⟩, ⟨66718, .cn, .cn⟩,
    ⟨66720, .nd, .nd⟩, ⟨66730, .cn, .cn⟩, ⟨66736, .lu, .lu⟩, ⟨66772, .cn, .cn⟩, ⟨66776, .ll, .ll⟩,
    ⟨66812, .cn, .cn⟩, ⟨66816, .lo, .lo⟩, ⟨66856, .cn, .cn⟩, ⟨66864, .lo, .lo⟩, ⟨66916, .cn, .cn⟩,
    ⟨66927, .po, .po⟩, ⟨66928, .lu, .lu⟩, ⟨66939, .cn, .cn⟩, ⟨66940, .lu, .lu⟩, ⟨66955, .cn, .cn⟩,
    ⟨66956, .lu, .lu⟩, ⟨66963, .cn, .cn⟩, ⟨66964, .lu, .lu⟩, ⟨66966, .cn, .cn⟩, ⟨66967, .ll, .ll⟩,
    ⟨66978, .cn, .cn⟩, ⟨66979, .ll, .ll⟩, ⟨66994, .cn, .cn⟩, ⟨66995, .ll, .ll⟩, ⟨67002, .cn, .cn⟩,
    ⟨67003, .ll, .ll⟩, ⟨67005, .cn, .cn⟩, ⟨67072, .lo, .lo⟩, ⟨67383, .cn, .cn⟩, ⟨67392, .lo, .lo⟩,
    ⟨67414, .cn, .cn⟩, ⟨67424, .lo, .lo⟩, ⟨67432, .cn, .cn⟩, ⟨67456, .lm, .lm⟩, ⟨67462, .cn, .cn⟩,
    ⟨67463, .lm, .lm⟩, ⟨67505, .cn, .cn⟩, ⟨67506, .lm, .lm⟩, ⟨67515, .cn, .cn⟩, ⟨67584, .lo, .lo⟩,
    ⟨67590, .cn, .cn⟩, ⟨67592, .lo, .cn⟩, ⟨67595, .lo, .lo⟩, ⟨67638, .cn, .cn⟩, ⟨67639, .lo, .lo⟩,
    ⟨67641, .cn, .cn⟩, ⟨67644, .lo, .lo⟩, ⟨67645, .cn, .cn⟩, ⟨67647, .lo, .lo⟩, ⟨67670, .cn, .cn⟩,
    ⟨67671, .po, .po⟩, ⟨67672, .no, .no⟩, ⟨67680, .lo, .lo⟩, ⟨67703, .so, .so⟩, ⟨67705, .no, .no⟩,
    ⟨67712, .lo, .lo⟩, ⟨67743, .cn, .cn⟩, ⟨67751, .no, .no⟩, ⟨67760, .cn, .cn⟩, ⟨67808, .lo, .lo⟩,
    ⟨67827, .cn, .cn⟩, ⟨67828, .lo, .lo⟩, ⟨67830, .cn, .cn⟩, ⟨67835, .no, .no⟩, ⟨67840, .lo, .lo⟩,
    ⟨67862, .no, .no⟩, ⟨67868, .cn, .cn⟩, ⟨67871, .po, .po⟩, ⟨67872, .lo, .lo⟩, ⟨67898, .cn, .cn⟩,
    ⟨67903, .po, .po⟩, ⟨67904, .cn, .cn⟩, ⟨67968, .lo, .lo⟩, ⟨68024, .cn, .cn⟩, ⟨68028, .no, .no⟩,
    ⟨68030, .lo, .lo⟩, ⟨68032, .no, .no⟩, ⟨68048, .cn, .cn⟩, ⟨68050, .no, .no⟩, ⟨68096, .lo, .lo⟩,
    ⟨68097, .mn, .mn⟩, ⟨68100, .cn, .cn⟩, ⟨68101, .mn, .mn⟩, ⟨68103, .cn, .cn⟩, ⟨68108, .mn, .mn⟩,
    ⟨68112, .lo, .lo⟩, ⟨68116, .cn, .cn⟩, ⟨68117, .lo, .lo⟩, ⟨68120, .cn, .cn⟩, ⟨68121, .lo, .lo⟩,
    ⟨68150, .cn, .cn⟩, ⟨68152, .mn, .mn⟩, ⟨68155, .cn, .cn⟩, ⟨68159, .mn, .mn⟩, ⟨68160, .no, .no⟩,
    ⟨68169, .cn, .cn⟩, ⟨68176, .po, .po⟩, ⟨68185, .cn, .cn⟩, ⟨68192, .lo, .lo⟩, ⟨68221, .no, .no⟩,
    ⟨68223, .po, .po⟩, ⟨68224, .lo, .lo⟩, ⟨68253, .no, .no⟩, ⟨68256, .cn, .cn⟩, ⟨68288, .lo, .lo⟩,
    ⟨68296, .so, .so⟩, ⟨68297, .lo, .lo⟩, ⟨68325, .mn, .mn⟩, ⟨68327, .cn, .cn⟩, ⟨68331, .no, .no⟩,
    ⟨68336, .po, .po⟩, ⟨68343, .cn, .cn⟩, ⟨68352, .lo, .lo⟩, ⟨68406, .cn, .cn⟩, ⟨68409, .po, .po⟩,
    ⟨68416, .lo, .lo⟩, ⟨68438, .cn, .cn⟩, ⟨68440, .no, .no⟩, ⟨68448, .lo, .lo⟩, ⟨68467, .cn, .cn⟩,
    ⟨68472, .no, .no⟩, ⟨68480, .lo, .lo⟩, ⟨68498, .cn, .cn⟩, ⟨68505, .po, .po⟩, ⟨68509, .cn, .cn⟩,
    ⟨68521, .no, .no⟩, ⟨68528, .cn, .cn⟩, ⟨68608, .lo, .lo⟩, ⟨68681, .cn, .cn⟩, ⟨68736, .lu, .lu⟩,
    ⟨68787, .cn, .cn⟩, ⟨68800, .ll, .ll⟩, ⟨68851, .cn, .cn⟩, ⟨68858, .no, .no⟩, ⟨68864, .lo, .lo⟩,
    ⟨68900, .mn, .mn⟩, ⟨68904, .cn, .cn⟩, ⟨68912, .nd, .nd⟩, ⟨68922, .cn, .cn⟩, ⟨69216, .no, .no⟩,
    ⟨69247, .cn, .cn⟩, ⟨69248, .lo, .lo⟩, ⟨69290, .cn, .cn⟩, ⟨69291, .mn, .mn⟩, ⟨69293, .pd, .pd⟩,
    ⟨69294, .cn, .cn⟩, ⟨69296, .lo, .lo⟩, ⟨69298, .cn, .cn⟩, ⟨69376, .lo, .lo⟩, ⟨69405, .no, .no⟩,
    ⟨69415, .lo, .lo⟩, ⟨69416, .cn, .cn⟩, ⟨69424, .lo, .lo⟩, ⟨69446, .mn, .mn⟩, ⟨69457, .no, .no⟩,
    ⟨69461, .po, .po⟩, ⟨69466, .cn, .cn⟩, ⟨69488, .lo, .lo⟩, ⟨69506, .mn, .mn⟩, ⟨69510, .po, .po⟩,
    ⟨69514, .cn, .cn⟩, ⟨69552, .lo, .lo⟩, ⟨69573, .no, .no⟩, ⟨69580, .cn, .cn⟩, ⟨69600, .lo, .lo⟩,
    ⟨69623, .cn, .cn⟩]

def categoryRunsAbove11000 : List CategoryRun :=
  [⟨69632, .mc, .mn⟩, ⟨69635, .lo, .lo⟩, ⟨69688, .mn, .mn⟩, ⟨69703, .po, .po⟩, ⟨69710, .cn, .cn⟩,
    ⟨69714, .no, .no⟩, ⟨69734, .nd, .nd⟩, ⟨69744, .mn, .mn⟩, ⟨69745, .lo, .lo⟩, ⟨69747, .mn, .mn⟩,
    ⟨69749, .lo, .lo⟩, ⟨69750, .cn, .cn⟩, ⟨69759, .mn, .mn⟩, ⟨69762, .mc, .mc⟩, ⟨69763, .lo, .lo⟩,
    ⟨69808, .mc, .mc⟩, ⟨69811, .mn, .mn⟩, ⟨69815, .mc, .mc⟩, ⟨69817, .mn, .mn⟩, ⟨69819, .po, .po⟩,
    ⟨69821, .cf, .cf⟩, ⟨69822, .po, .po⟩, ⟨69826, .mn, .mn⟩, ⟨69827, .cn, .cn⟩, ⟨69837, .cf, .cf⟩,
    ⟨69838, .cn, .cn⟩, ⟨69840, .lo, .lo⟩, ⟨69865, .cn, .cn⟩, ⟨69872, .nd, .nd⟩, ⟨69882, .cn, .cn⟩,
    ⟨69888, .mn, .mn⟩, ⟨69891, .lo, .lo⟩, ⟨69927, .mn, .mn⟩, ⟨69932, .mc, .mc⟩, ⟨69933, .mn, .mn⟩,
    ⟨69941, .cn, .cn⟩, ⟨69942, .nd, .nd⟩, ⟨69952, .po, .po⟩, ⟨69956, .lo, .lo⟩, ⟨69957, .mc, .mc⟩,
    ⟨69959, .lo, .lo⟩, ⟨69960, .cn, .cn⟩, ⟨69968, .lo, .lo⟩, ⟨70003, .mn, .mn⟩, ⟨70004, .po, .po⟩,
    ⟨70006, .lo, .lo⟩, ⟨70007, .cn, .cn⟩, ⟨70016, .mn, .mn⟩, ⟨70018, .mc, .mc⟩, ⟨70019, .lo, .lo⟩,
    ⟨70067, .mc, .mc⟩, ⟨70070, .mn, .mn⟩, ⟨70079, .mc, .mc⟩, ⟨70081, .lo, .lo⟩, ⟨70085, .po, .po⟩,
    ⟨70089, .mn, .mn⟩, ⟨70093, .po, .po⟩, ⟨70094, .mc, .mc⟩, ⟨70095, .mn, .mn⟩, ⟨70096, .nd, .nd⟩,
    ⟨70106, .lo, .po⟩, ⟨70110, .po, .po⟩, ⟨70112, .cn, .cn⟩, ⟨70113, .no, .no⟩, ⟨70133, .cn, .cn⟩,
    ⟨70144, .lo, .lo⟩, ⟨70162, .cn, .cn⟩, ⟨70163, .lo, .lo⟩, ⟨70188, .mc, .mc⟩, ⟨70191, .mn, .mn⟩,
    ⟨70194, .mc, .mc⟩, ⟨70196, .mn, .mc⟩, ⟨70199, .mn, .mn⟩, ⟨70200, .po, .po⟩, ⟨70206, .mn, .mn⟩,
    ⟨70207, .cn, .cn⟩, ⟨70272, .lo, .lo⟩, ⟨70279, .cn, .lo⟩, ⟨70283, .lo, .lo⟩, ⟨70286, .cn, .cn⟩,
    ⟨70287, .lo, .lo⟩, ⟨70302, .cn, .cn⟩, ⟨70303, .lo, .lo⟩, ⟨70313, .po, .po⟩, ⟨70314, .cn, .cn⟩,
    ⟨70320, .lo, .lo⟩, ⟨70367, .mn, .mn⟩, ⟨70368, .mc, .mc⟩, ⟨70371, .mn, .mn⟩, ⟨70379, .cn, .cn⟩,
    ⟨70384, .nd, .nd⟩, ⟨70394, .cn, .cn⟩, ⟨70400, .mn, .mn⟩, ⟨70402, .mc, .mc⟩, ⟨70404, .cn, .cn⟩,
    ⟨70405, .lo, .lo⟩, ⟨70413, .cn, .cn⟩, ⟨70415, .lo, .lo⟩, ⟨70417, .cn, .cn⟩, ⟨70419, .lo, .lo⟩,
    ⟨70441, .cn, .cn⟩, ⟨70442, .lo, .lo⟩, ⟨70449, .cn, .cn⟩, ⟨70450, .lo, .lo⟩, ⟨70452, .cn, .cn⟩,
    ⟨70453, .lo, .lo⟩, ⟨70458, .cn, .cn⟩, ⟨70459, .mn, .mn⟩, ⟨70461, .lo, .lo⟩, ⟨70462, .mc, .mc⟩,
    ⟨70464, .mn, .mn⟩, ⟨70465, .mc, .mc⟩, ⟨70469, .cn, .cn⟩, ⟨70471, .mc, .mc⟩, ⟨70473, .cn, .cn⟩,
    ⟨70475, .mc, .mc⟩, ⟨70478, .cn, .cn⟩, ⟨70480, .lo, .lo⟩, ⟨70481, .cn, .cn⟩, ⟨70487, .mc, .mc⟩,
    ⟨70488, .cn, .cn⟩, ⟨70493, .lo, .lo⟩, ⟨70498, .mc, .mc⟩, ⟨70500, .cn, .cn⟩, ⟨70502, .mn, .mn⟩,
    ⟨70509, .cn, .cn⟩, ⟨70512, .mn, .mn⟩, ⟨70517, .cn, .cn⟩, ⟨70656, .lo, .lo⟩, ⟨70709, .mc, .mc⟩,
    ⟨70712, .mn, .mn⟩, ⟨70720, .mc, .mc⟩, ⟨70722, .mn, .mn⟩, ⟨70725, .mc, .mc⟩, ⟨70726, .mn, .mn⟩,
    ⟨70727, .lo, .lo⟩, ⟨70731, .po, .po⟩, ⟨70736, .nd, .nd⟩, ⟨70746, .po, .po⟩, ⟨70748, .cn, .cn⟩,
    ⟨70749, .po, .po⟩, ⟨70750, .mn, .mn⟩, ⟨70751, .lo, .lo⟩, ⟨70754, .cn, .cn⟩, ⟨70784, .lo, .lo⟩,
    ⟨70832, .mc, .mc⟩, ⟨70835, .mn, .mn⟩, ⟨70841, .mc, .mn⟩, ⟨70844, .mc, .mc⟩, ⟨70847, .mn, .mn⟩,
    ⟨70849, .mc, .mc⟩, ⟨70850, .mn, .mn⟩, ⟨70852, .lo, .lo⟩, ⟨70854, .po, .po⟩, ⟨70855, .lo, .lo⟩,
    ⟨70856, .cn, .cn⟩, ⟨70864, .nd, .nd⟩, ⟨70874, .cn, .cn⟩, ⟨71040, .lo, .lo⟩, ⟨71087, .mc, .mc⟩,
    ⟨71090, .mn, .mn⟩, ⟨71094, .cn, .cn⟩, ⟨71096, .mc, .mc⟩, ⟨71100, .mn, .mn⟩, ⟨71102, .mc, .mc⟩,
    ⟨71103, .mn, .mn⟩, ⟨71105, .po, .po⟩, ⟨71128, .lo, .lo⟩, ⟨71132, .mn, .mn⟩, ⟨71134, .cn, .cn⟩,
    ⟨71168, .lo, .lo⟩, ⟨71216, .mc, .mc⟩, ⟨71219, .mn, .mn⟩, ⟨71227, .mc, .mc⟩, ⟨71229, .mn, .mc⟩,
    ⟨71232, .mn, .mn⟩, ⟨71233, .po, .po⟩, ⟨71236, .lo, .lo⟩, ⟨71237, .cn, .cn⟩, ⟨71248, .nd, .nd⟩,
    ⟨71258, .cn, .cn⟩, ⟨71264, .po, .po⟩, ⟨71277, .cn, .cn⟩, ⟨71296, .lo, .lo⟩, ⟨71339, .mn, .mc⟩,
    ⟨71343, .mc, .mc⟩, ⟨71344, .mn, .mn⟩, ⟨71350, .mc, .mc⟩, ⟨71351, .mn, .mn⟩, ⟨71352, .lo, .lo⟩,
    ⟨71353, .po, .po⟩, ⟨71354, .cn, .cn⟩, ⟨71360, .nd, .nd⟩, ⟨71370, .cn, .cn⟩, ⟨71424, .lo, .lo⟩,
    ⟨71451, .cn, .cn⟩, ⟨71453, .mn, .mn⟩, ⟨71456, .mc, .mc⟩, ⟨71458, .mn, .mn⟩, ⟨71462, .mc, .mc⟩,
    ⟨71463, .mn, .mn⟩, ⟨71468, .cn, .cn⟩, ⟨71472, .nd, .nd⟩, ⟨71482, .no, .no⟩, ⟨71484, .po, .po⟩,
    ⟨71487, .so, .so⟩, ⟨71488, .lo, .lo⟩, ⟨71495, .cn, .cn⟩, ⟨71680, .lo, .lo⟩, ⟨71724, .mc, .mc⟩,
    ⟨71727, .mn, .mn⟩, ⟨71736, .mc, .mc⟩, ⟨71737, .mn, .mn⟩, ⟨71739, .po, .po⟩, ⟨71740, .cn, .cn⟩,
    ⟨71840, .lu, .lu⟩, ⟨71872, .ll, .ll⟩, ⟨71904, .nd, .nd⟩, ⟨71914, .no, .no⟩, ⟨71923, .cn, .cn⟩,
    ⟨71935, .lo, .lo⟩, ⟨71943, .cn, .cn⟩, ⟨71945, .lo, .lo⟩, ⟨71946, .cn, .cn⟩, ⟨71948, .lo, .lo⟩,
    ⟨71956, .cn, .cn⟩, ⟨71957, .lo, .lo⟩, ⟨71959, .cn, .cn⟩, ⟨71960, .lo, .lo⟩, ⟨71984, .mc, .mc⟩,
    ⟨71990, .cn, .cn⟩, ⟨71991, .mc, .mc⟩, ⟨71993, .cn, .cn⟩, ⟨71995, .mn, .mn⟩, ⟨71997, .mc, .mc⟩,
    ⟨71998, .mn, .mn⟩, ⟨71999, .lo, .mc⟩, ⟨72003, .mn, .mn⟩, ⟨72004, .po, .po⟩, ⟨72007, .cn, .cn⟩,
    ⟨72016, .nd, .nd⟩, ⟨72026, .cn, .cn⟩, ⟨72096, .lo, .lo⟩, ⟨72104, .cn, .cn⟩, ⟨72106, .lo, .lo⟩,
    ⟨72145, .mc, .mc⟩, ⟨72148, .mn, .mn⟩, ⟨72152, .cn, .cn⟩, ⟨72154, .mn, .mn⟩, ⟨72156, .mc, .mc⟩,
    ⟨72160, .mn, .mn⟩, ⟨72161, .lo, .po⟩, ⟨72164, .mc, .mc⟩, ⟨72165, .cn, .cn⟩, ⟨72192, .lo, .lo⟩,
    ⟨72193, .mn, .mn⟩, ⟨72203, .lo, .lo⟩, ⟨72243, .mn, .mn⟩, ⟨72249, .mc, .mc⟩, ⟨72250, .lo, .lo⟩,
    ⟨72251, .mn, .mn⟩, ⟨72255, .po, .po⟩, ⟨72263, .mn, .mn⟩, ⟨72264, .cn, .cn⟩, ⟨72272, .lo, .lo⟩,
    ⟨72273, .mn, .mn⟩, ⟨72279, .mc, .mc⟩, ⟨72281, .mn, .mn⟩, ⟨72284, .lo, .lo⟩, ⟨72330, .mn, .mn⟩,
    ⟨72343, .mc, .mc⟩, ⟨72344, .mn, .mn⟩, ⟨72346, .po, .po⟩, ⟨72349, .lo, .lo⟩, ⟨72350, .po, .po⟩,
    ⟨72355, .cn, .cn⟩, ⟨72368, .lo, .lo⟩, ⟨72441, .cn, .cn⟩, ⟨72704, .lo, .lo⟩, ⟨72713, .cn, .cn⟩,
    ⟨72714, .lo, .lo⟩, ⟨72751, .mc, .mc⟩, ⟨72752, .mn, .mn⟩, ⟨72759, .cn, .cn⟩, ⟨72760, .mn, .mn⟩,
    ⟨72766, .mc, .mc⟩, ⟨72767, .mn, .mn⟩, ⟨72768, .lo, .lo⟩, ⟨72769, .po, .po⟩, ⟨72774, .cn, .cn⟩,
    ⟨72784, .nd, .nd⟩, ⟨72794, .no, .no⟩, ⟨72813, .cn, .cn⟩, ⟨72816, .po, .po⟩, ⟨72818, .lo, .lo⟩,
    ⟨72848, .cn, .cn⟩, ⟨72850, .mn, .mn⟩, ⟨72872, .cn, .cn⟩, ⟨72873, .mc, .mc⟩, ⟨72874, .mn, .mn⟩,
    ⟨72881, .mc, .mc⟩, ⟨72882, .mn, .mn⟩, ⟨72884, .mc, .mc⟩, ⟨72885, .mn, .mn⟩, ⟨72887, .cn, .cn⟩,
    ⟨72960, .lo, .lo⟩, ⟨72967, .cn, .cn⟩, ⟨72968, .lo, .lo⟩, ⟨72970, .cn, .cn⟩, ⟨72971, .lo, .lo⟩,
    ⟨73009, .mn, .mn⟩, ⟨73015, .cn, .cn⟩, ⟨73018, .mn, .cn⟩, ⟨73021, .mn, .cn⟩, ⟨73024, .mn, .mn⟩,
    ⟨73030, .lo, .lo⟩, ⟨73031, .mn, .mn⟩, ⟨73032, .cn, .cn⟩, ⟨73040, .nd, .nd⟩, ⟨73050, .cn, .cn⟩,
    ⟨73056, .lo, .lo⟩, ⟨73062, .cn, .cn⟩, ⟨73063, .lo, .lo⟩, ⟨73065, .cn, .cn⟩, ⟨73066, .lo, .lo⟩,
    ⟨73098, .mc, .mc⟩, ⟨73103, .cn, .cn⟩, ⟨73104, .mn, .mn⟩, ⟨73106, .cn, .cn⟩, ⟨73107, .mc, .mc⟩,
    ⟨73109, .mn, .mc⟩, ⟨73112, .lo, .lo⟩, ⟨73113, .cn, .cn⟩, ⟨73120, .nd, .nd⟩, ⟨73130, .cn, .cn⟩,
    ⟨73440, .lo, .lo⟩, ⟨73459, .mn, .mn⟩, ⟨73461, .mc, .mc⟩, ⟨73463, .po, .po⟩, ⟨73465, .cn, .cn⟩,
    ⟨73648, .lo, .lo⟩, ⟨73649, .cn, .cn⟩, ⟨73664, .no, .no⟩, ⟨73685, .so, .so⟩, ⟨73693, .sc, .sc⟩,
    ⟨73697, .so, .so⟩, ⟨73714, .cn, .cn⟩, ⟨73727, .po, .po⟩, ⟨73728, .lo, .lo⟩, ⟨74650, .cn, .cn⟩,
    ⟨74752, .nl, .nl⟩, ⟨74863, .cn, .cn⟩, ⟨74864, .po, .po⟩, ⟨74869, .cn, .cn⟩, ⟨74880, .lo, .lo⟩,
    ⟨75076, .cn, .cn⟩, ⟨77712, .lo, .lo⟩, ⟨77809, .po, .po⟩, ⟨77811, .cn, .cn⟩, ⟨77824, .lo, .lo⟩,
    ⟨78895, .cn, .cn⟩, ⟨78896, .cf, .cf⟩, ⟨78905, .cn, .cn⟩, ⟨82944, .lo, .lo⟩, ⟨83527, .cn, .cn⟩,
    ⟨92160, .lo, .lo⟩, ⟨92729, .cn, .cn⟩, ⟨92736, .lo, .lo⟩, ⟨92767, .cn, .cn⟩, ⟨92768, .nd, .nd⟩,
    ⟨92778, .cn, .cn⟩, ⟨92782, .po, .po⟩, ⟨92784, .lo, .lo⟩, ⟨92863, .cn, .cn⟩, ⟨92864, .nd, .nd⟩,
    ⟨92874, .cn, .cn⟩, ⟨92880, .lo, .lo⟩, ⟨92910, .cn, .cn⟩, ⟨92912, .mn, .mn⟩, ⟨92917, .po, .po⟩,
    ⟨92918, .cn, .cn⟩, ⟨92928, .lo, .lo⟩, ⟨92976, .mn, .mn⟩, ⟨92983, .po, .po⟩, ⟨92988, .so, .so⟩,
    ⟨92992, .lm, .lm⟩, ⟨92996, .po, .po⟩, ⟨92997, .so, .so⟩, ⟨92998, .cn, .cn⟩, ⟨93008, .nd, .nd⟩,
    ⟨93018, .cn, .cn⟩, ⟨93019, .no, .no⟩, ⟨93026, .cn, .cn⟩, ⟨93027, .lo, .lo⟩, ⟨93048, .cn, .cn⟩,
    ⟨93053, .lo, .lo⟩, ⟨93072, .cn, .cn⟩, ⟨93760, .lu, .lu⟩, ⟨93792, .ll, .ll⟩, ⟨93824, .no, .no⟩,
    ⟨93847, .po, .po⟩, ⟨93851, .cn, .cn⟩, ⟨93952, .lo, .lo⟩, ⟨94027, .cn, .cn⟩, ⟨94031, .mn, .mn⟩,
    ⟨94032, .lo, .lo⟩, ⟨94033, .mc, .mc⟩, ⟨94088, .cn, .cn⟩, ⟨94095, .mn, .mn⟩, ⟨94099, .lm, .lm⟩,
    ⟨94112, .cn, .cn⟩, ⟨94176, .lm, .lm⟩, ⟨94178, .po, .po⟩, ⟨94179, .lm, .lm⟩, ⟨94180, .mn, .mn⟩,
    ⟨94181, .cn, .cn⟩, ⟨94192, .mc, .mc⟩, ⟨94194, .cn, .cn⟩, ⟨94208, .lo, .lo⟩, ⟨100344, .cn, .cn⟩,
    ⟨100352, .lo, .lo⟩, ⟨101590, .cn, .cn⟩, ⟨101632, .lo, .lo⟩, ⟨101641, .cn, .cn⟩,
    ⟨110576, .lm, .lm⟩, ⟨110580, .cn, .cn⟩, ⟨110581, .lm, .lm⟩, ⟨110588, .cn, .cn⟩,
    ⟨110589, .lm, .lm⟩, ⟨110591, .cn, .cn⟩, ⟨110592, .lo, .lo⟩, ⟨110883, .cn, .cn⟩,
    ⟨110928, .lo, .lo⟩, ⟨110931, .cn, .cn⟩, ⟨110948, .lo, .lo⟩, ⟨110952, .cn, .cn⟩,
    ⟨110960, .lo, .lo⟩, ⟨111356, .cn, .cn⟩, ⟨113664, .lo, .lo⟩, ⟨113771, .cn, .cn⟩,
    ⟨113776, .lo, .lo⟩, ⟨113789, .cn, .cn⟩, ⟨113792, .lo, .lo⟩, ⟨113801, .cn, .cn⟩,
    ⟨113808, .lo, .lo⟩, ⟨113818, .cn, .cn⟩, ⟨113820, .so, .so⟩, ⟨113821, .mn, .mn⟩,
    ⟨113823, .po, .po⟩, ⟨113824, .cf, .cf⟩, ⟨113828, .cn, .cn⟩, ⟨118528, .mn, .mn⟩,
    ⟨118574, .cn, .cn⟩, ⟨118576, .mn, .mn⟩, ⟨118599, .cn, .cn⟩, ⟨118608, .so, .so⟩,
    ⟨118724, .cn, .cn⟩, ⟨118784, .so, .so⟩, ⟨119030, .cn, .cn⟩, ⟨119040, .so, .so⟩,
    ⟨119079, .cn, .cn⟩, ⟨119081, .so, .so⟩, ⟨119141, .mc, .mc⟩, ⟨119143, .mn, .mn⟩,
    ⟨119146, .so, .so⟩, ⟨119149, .mc, .mc⟩, ⟨119155, .cf, .cf⟩, ⟨119163, .mn, .mn⟩,
    ⟨119171, .so, .so⟩, ⟨119173, .mn, .mn⟩, ⟨119180, .so, .so⟩, ⟨119210, .mn, .mn⟩,
    ⟨119214, .so, .so⟩, ⟨119275, .cn, .cn⟩, ⟨119296, .so, .so⟩, ⟨119362, .mn, .mn⟩,
    ⟨119365, .so, .so⟩, ⟨119366, .cn, .cn⟩, ⟨119520, .no, .no⟩, ⟨119540, .cn, .cn⟩,
    ⟨119552, .so, .so⟩, ⟨119639, .cn, .cn⟩, ⟨119648, .no, .no⟩, ⟨119673, .cn, .cn⟩,
    ⟨119808, .lu, .lu⟩, ⟨119834, .ll, .ll⟩, ⟨119860, .lu, .lu⟩, ⟨119886, .ll, .ll⟩,
    ⟨119893, .cn, .cn⟩, ⟨119894, .ll, .ll⟩, ⟨119912, .lu, .lu⟩, ⟨119938, .ll, .ll⟩,
    ⟨119964, .lu, .cn⟩, ⟨119967, .lu, .lu⟩, ⟨119968, .cn, .cn⟩, ⟨119970, .lu, .lu⟩,
    ⟨119971, .cn, .cn⟩, ⟨119973, .lu, .lu⟩, ⟨119975, .cn, .cn⟩, ⟨119977, .lu, .lu⟩,
    ⟨119981, .cn, .cn⟩, ⟨119982, .lu, .lu⟩, ⟨119990, .ll, .ll⟩, ⟨119994, .cn, .ll⟩,
    ⟨119998, .ll, .ll⟩, ⟨120004, .cn, .cn⟩, ⟨120005, .ll, .ll⟩, ⟨120016, .lu, .lu⟩,
    ⟨120042, .ll, .ll⟩, ⟨120068, .lu, .lu⟩, ⟨120070, .cn, .cn⟩, ⟨120071, .lu, .lu⟩,
    ⟨120075, .cn, .cn⟩, ⟨120077, .lu, .lu⟩, ⟨120085, .cn, .cn⟩, ⟨120086, .lu, .lu⟩,
    ⟨120093, .cn, .cn⟩, ⟨120094, .ll, .ll⟩, ⟨120120, .lu, .lu⟩, ⟨120122, .cn, .cn⟩,
    ⟨120123, .lu, .lu⟩, ⟨120127, .cn, .cn⟩, ⟨120128, .lu, .lu⟩, ⟨120133, .cn, .lu⟩,
    ⟨120136, .cn, .cn⟩, ⟨120138, .lu, .lu⟩, ⟨120145, .cn, .cn⟩, ⟨120146, .ll, .ll⟩,
    ⟨120172, .lu, .lu⟩, ⟨120198, .ll, .ll⟩, ⟨120224, .lu, .lu⟩, ⟨120250, .ll, .ll⟩,
    ⟨120276, .lu, .lu⟩, ⟨120302, .ll, .ll⟩, ⟨120328, .lu, .lu⟩, ⟨120354, .ll, .ll⟩,
    ⟨120380, .lu, .lu⟩, ⟨120406, .ll, .ll⟩, ⟨120432, .lu, .lu⟩, ⟨120458, .ll, .ll⟩,
    ⟨120486, .cn, .cn⟩, ⟨120488, .lu, .lu⟩, ⟨120513, .sm, .sm⟩, ⟨120514, .ll, .ll⟩,
    ⟨120539, .sm, .sm⟩, ⟨120540, .ll, .ll⟩, ⟨120546, .lu, .lu⟩, ⟨120571, .sm, .sm⟩,
    ⟨120572, .ll, .ll⟩, ⟨120597, .sm, .sm⟩, ⟨120598, .ll, .ll⟩, ⟨120604, .lu, .lu⟩,
    ⟨120629, .sm, .sm⟩, ⟨120630, .ll, .ll⟩, ⟨120655, .sm, .sm⟩, ⟨120656, .ll, .ll⟩,
    ⟨120662, .lu, .lu⟩, ⟨120687, .sm, .sm⟩, ⟨120688, .ll, .ll⟩, ⟨120713, .sm, .sm⟩,
    ⟨120714, .ll, .ll⟩, ⟨120720, .lu, .lu⟩, ⟨120745, .sm, .sm⟩, ⟨120746, .ll, .ll⟩,
    ⟨120771, .sm, .sm⟩, ⟨120772, .ll, .ll⟩, ⟨120778, .lu, .lu⟩, ⟨120779, .ll, .ll⟩,
    ⟨120780, .cn, .cn⟩, ⟨120782, .nd, .nd⟩, ⟨120832, .so, .so⟩, ⟨121344, .mn, .mn⟩,
    ⟨121399, .so, .so⟩, ⟨121403, .mn, .mn⟩, ⟨121453, .so, .so⟩, ⟨121461, .mn, .mn⟩,
    ⟨121462, .so, .so⟩, ⟨121476, .mn, .mn⟩, ⟨121477, .so, .so⟩, ⟨121479, .po, .po⟩,
    ⟨121484, .cn, .cn⟩, ⟨121499, .mn, .mn⟩, ⟨121504, .cn, .cn⟩, ⟨121505, .mn, .mn⟩,
    ⟨121520, .cn, .cn⟩, ⟨122624, .ll, .ll⟩, ⟨122634, .lo, .lo⟩, ⟨122635, .ll, .ll⟩,
    ⟨122655, .cn, .cn⟩, ⟨122880, .mn, .mn⟩, ⟨122887, .cn, .cn⟩, ⟨122888, .mn, .mn⟩,
    ⟨122905, .cn, .cn⟩, ⟨122907, .mn, .mn⟩, ⟨122914, .cn, .cn⟩, ⟨122915, .mn, .mn⟩,
    ⟨122917, .cn, .cn⟩, ⟨122918, .mn, .mn⟩, ⟨122923, .cn, .cn⟩, ⟨123136, .lo, .lo⟩,
    ⟨123181, .cn, .cn⟩, ⟨123184, .mn, .mn⟩, ⟨123191, .lm, .lm⟩, ⟨123198, .cn, .cn⟩,
    ⟨123200, .nd, .nd⟩, ⟨123210, .cn, .cn⟩, ⟨123214, .lo, .lo⟩, ⟨123215, .so, .so⟩,
    ⟨123216, .cn, .cn⟩, ⟨123536, .lo, .lo⟩, ⟨123566, .mn, .mn⟩, ⟨123567, .cn, .cn⟩,
    ⟨123584, .lo, .lo⟩, ⟨123628, .mn, .mn⟩, ⟨123632, .nd, .nd⟩, ⟨123642, .cn, .cn⟩,
    ⟨123647, .sc, .sc⟩, ⟨123648, .cn, .cn⟩, ⟨124896, .lo, .lo⟩, ⟨124903, .cn, .cn⟩,
    ⟨124904, .lo, .lo⟩, ⟨124908, .cn, .cn⟩, ⟨124909, .lo, .lo⟩, ⟨124911, .cn, .cn⟩,
    ⟨124912, .lo, .lo⟩, ⟨124927, .cn, .cn⟩, ⟨124928, .lo, .lo⟩, ⟨125125, .cn, .cn⟩,
    ⟨125127, .no, .no⟩, ⟨125136, .mn, .mn⟩, ⟨125143, .cn, .cn⟩, ⟨125184, .lu, .lu⟩,
    ⟨125218, .ll, .ll⟩, ⟨125252, .mn, .mn⟩, ⟨125259, .lm, .lm⟩, ⟨125260, .cn, .cn⟩,
    ⟨125264, .nd, .nd⟩, ⟨125274, .cn, .cn⟩, ⟨125278, .po, .po⟩, ⟨125280, .cn, .cn⟩,
    ⟨126065, .no, .no⟩, ⟨126124, .so, .so⟩, ⟨126125, .no, .no⟩, ⟨126128, .sc, .sc⟩,
    ⟨126129, .no, .no⟩, ⟨126133, .cn, .cn⟩, ⟨126209, .no, .no⟩, ⟨126254, .so, .so⟩,
    ⟨126255, .no, .no⟩, ⟨126270, .cn, .cn⟩, ⟨126464, .lo, .lo⟩, ⟨126468, .cn, .cn⟩,
    ⟨126469, .lo, .lo⟩, ⟨126496, .cn, .cn⟩, ⟨126497, .lo, .lo⟩, ⟨126499, .cn, .lo⟩,
    ⟨126502, .cn, .lo⟩, ⟨126506, .lo, .lo⟩, ⟨126515, .cn, .cn⟩, ⟨126516, .lo, .lo⟩,
    ⟨126520, .cn, .lo⟩, ⟨126525, .cn, .cn⟩, ⟨126530, .lo, .lo⟩, ⟨126531, .cn, .cn⟩,
    ⟨126535, .lo, .cn⟩, ⟨126542, .lo, .lo⟩, ⟨126544, .cn, .cn⟩, ⟨126545, .lo, .lo⟩,
    ⟨126547, .cn, .lo⟩, ⟨126550, .cn, .lo⟩, ⟨126562, .lo, .cn⟩, ⟨126566, .cn, .cn⟩,
    ⟨126567, .lo, .lo⟩, ⟨126571, .cn, .cn⟩, ⟨126572, .lo, .lo⟩, ⟨126579, .cn, .cn⟩,
    ⟨126580, .lo, .lo⟩, ⟨126584, .cn, .cn⟩, ⟨126585, .lo, .lo⟩, ⟨126589, .cn, .lo⟩,
    ⟨126593, .lo, .lo⟩, ⟨126602, .cn, .cn⟩, ⟨126603, .lo, .lo⟩, ⟨126620, .cn, .cn⟩,
    ⟨126625, .lo, .lo⟩, ⟨126628, .cn, .cn⟩, ⟨126629, .lo, .lo⟩, ⟨126634, .cn, .cn⟩,
    ⟨126635, .lo, .lo⟩, ⟨126652, .cn, .cn⟩, ⟨126704, .sm, .sm⟩, ⟨126706, .cn, .cn⟩,
    ⟨126976, .so, .so⟩, ⟨127020, .cn, .cn⟩, ⟨127024, .so, .so⟩, ⟨127124, .cn, .cn⟩,
    ⟨127136, .so, .so⟩, ⟨127151, .cn, .cn⟩, ⟨127153, .so, .so⟩, ⟨127168, .cn, .cn⟩,
    ⟨127169, .so, .so⟩, ⟨127184, .cn, .cn⟩, ⟨127185, .so, .so⟩, ⟨127222, .cn, .cn⟩,
    ⟨127232, .no, .no⟩, ⟨127245, .so, .so⟩, ⟨127406, .cn, .cn⟩, ⟨127462, .so, .so⟩,
    ⟨127491, .cn, .cn⟩, ⟨127504, .so, .so⟩, ⟨127548, .cn, .cn⟩, ⟨127552, .so, .so⟩,
    ⟨127561, .cn, .cn⟩, ⟨127568, .so, .so⟩, ⟨127570, .cn, .cn⟩, ⟨127584, .so, .so⟩,
    ⟨127590, .cn, .cn⟩, ⟨127744, .so, .so⟩, ⟨127995, .sk, .sk⟩, ⟨128000, .so, .so⟩,
    ⟨128728, .cn, .cn⟩, ⟨128733, .so, .so⟩, ⟨128749, .cn, .cn⟩, ⟨128752, .so, .so⟩,
    ⟨128765, .cn, .cn⟩, ⟨128768, .so, .so⟩, ⟨128884, .cn, .cn⟩, ⟨128896, .so, .so⟩,
    ⟨128985, .cn, .cn⟩, ⟨128992, .so, .so⟩, ⟨129004, .cn, .cn⟩, ⟨129008, .so, .so⟩,
    ⟨129009, .cn, .cn⟩, ⟨129024, .so, .so⟩, ⟨129036, .cn, .cn⟩, ⟨129040, .so, .so⟩,
    ⟨129096, .cn, .cn⟩, ⟨129104, .so, .so⟩, ⟨129114, .cn, .cn⟩, ⟨129120, .so, .so⟩,
    ⟨129160, .cn, .cn⟩, ⟨129168, .so, .so⟩, ⟨129198, .cn, .cn⟩, ⟨129200, .so, .so⟩,
    ⟨129202, .cn, .cn⟩, ⟨129280, .so, .so⟩, ⟨129620, .cn, .cn⟩, ⟨129632, .so, .so⟩,
    ⟨129646, .cn, .cn⟩, ⟨129648, .so, .so⟩, ⟨129653, .cn, .cn⟩, ⟨129656, .so, .so⟩,
    ⟨129661, .cn, .cn⟩, ⟨129664, .so, .so⟩, ⟨129671, .cn, .cn⟩, ⟨129680, .so, .so⟩,
    ⟨129709, .cn, .cn⟩, ⟨129712, .so, .so⟩, ⟨129723, .cn, .cn⟩, ⟨129728, .so, .so⟩,
    ⟨129734, .cn, .cn⟩, ⟨129744, .so, .so⟩, ⟨129754, .cn, .cn⟩, ⟨129760, .so, .so⟩,
    ⟨129768, .cn, .cn⟩, ⟨129776, .so, .so⟩, ⟨129783, .cn, .cn⟩, ⟨129792, .so, .so⟩,
    ⟨129939, .cn, .cn⟩, ⟨129940, .so, .so⟩, ⟨129995, .cn, .cn⟩, ⟨130032, .nd, .nd⟩,
    ⟨130042, .cn, .cn⟩, ⟨131072, .lo, .lo⟩, ⟨173792, .cn, .cn⟩, ⟨173824, .lo, .lo⟩,
    ⟨177977, .cn, .cn⟩, ⟨177984, .lo, .lo⟩, ⟨178206, .cn, .cn⟩, ⟨178208, .lo, .lo⟩,
    ⟨183970, .cn, .cn⟩, ⟨183984, .lo, .lo⟩, ⟨191457, .cn, .cn⟩, ⟨194560, .lo, .lo⟩,
    ⟨195102, .cn, .cn⟩, ⟨196608, .lo, .lo⟩, ⟨201547, .cn, .cn⟩, ⟨917505, .cf, .cf⟩,
    ⟨917506, .cn, .cn⟩, ⟨917536, .cf, .cf⟩, ⟨917632, .cn, .cn⟩, ⟨917760, .mn, .mn⟩,
    ⟨918000, .cn, .cn⟩, ⟨983040, .co, .co⟩, ⟨1048574, .cn, .cn⟩, ⟨1048576, .co, .co⟩,
    ⟨1114110, .cn, .cn⟩]

/-- The category at `n` by the last of the runs, in ascending order, that begins there or before. -/
def categoryAmong (n : Nat) : Category → List CategoryRun → Category
  | found, [] => found
  | found, run :: runs =>
    if n < run.first then found
    else categoryAmong n (if (n - run.first) % 2 = 0 then run.even else run.odd) runs

def categoryRuns (n : Nat) : List CategoryRun :=
  if n < 0x1000 then categoryRunsBelow1000
  else if n < 0x3000 then categoryRunsBelow3000
  else if n < 0x11000 then categoryRunsBelow11000
  else categoryRunsAbove11000

def categoryOf (n : Nat) : Category := categoryAmong n .cn (categoryRuns n)

end EarleyTree.Text
